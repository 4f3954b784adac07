import Mathlib.Algebra.BigOperators.Group.Multiset.Basic
import SolverLog.Proofs.Assembly
import SolverLog.Proofs.Labels

/-!
# Conservation

Nothing that a log holds is lost on the way to its document, and nothing is there twice or comes
from nowhere.

* `Dict.tally` — a sum over all entries of a dictionary, at any depth.
* `Owned.tally_document` — such a sum over the document is the sum over the store. Each dictionary
  is counted where its one holder has it.
* `Document.fields_elements_conserved` — the fields of a document are those of the records, and its
  steps and list elements are the sections that began one.
-/

namespace SolverLog

variable {M : Type}

/-! ## Sums over a document -/

mutual

/-- The sum of a measure over a node at a key and all that it holds. -/
def Node.tally [AddCommMonoid M] (own : String → Node → M) (key : String) : Node → M
  | .value held => own key (.value held)
  | .dict entries => own key (.dict entries) + Dict.tally own entries
  | .list items => own key (.list items) + Dict.tallyItems own items

/-- The sum of a measure over the entries of a dictionary and all that they hold. -/
def Dict.tally [AddCommMonoid M] (own : String → Node → M) : List (String × Node) → M
  | [] => 0
  | (key, node) :: rest => Node.tally own key node + Dict.tally own rest

/-- The sum of a measure over the dictionaries of a list. -/
def Dict.tallyItems [AddCommMonoid M] (own : String → Node → M) :
    List (List (String × Node)) → M
  | [] => 0
  | item :: rest => Dict.tally own item + Dict.tallyItems own rest

end

/-- The sum of a measure over the entries of a document, at any depth. -/
def Document.tally [AddCommMonoid M] (own : String → Node → M) (document : Document) : M :=
  Dict.tally own document.globals + (document.steps.map (Dict.tally own)).sum

/-- The fields of a document, at any depth: keys with values. -/
def Document.fields : Document → Multiset (String × Value) :=
  Document.tally fun key node =>
    match node with
    | .value held => {(key, held)}
    | .dict _ | .list _ => 0

/-- The number of dictionaries that are elements of lists, at any depth. -/
def Document.elements : Document → Nat :=
  Document.tally fun _ node => node.items.length

section

variable [AddCommMonoid M] (own : String → Node → M)

theorem Dict.tally_eq_sum (dict : Dict) :
    Dict.tally own dict = (dict.map fun entry => Node.tally own entry.1 entry.2).sum := by
  induction dict with
  | nil => simp [Dict.tally]
  | cons entry rest ih => simp [Dict.tally, ih]

theorem Dict.tallyItems_eq_sum (items : List Dict) :
    Dict.tallyItems own items = (items.map (Dict.tally own)).sum := by
  induction items with
  | nil => simp [Dict.tallyItems]
  | cons item rest ih => simp [Dict.tallyItems, ih]

end

namespace Builder

/-! ## From the store to the document -/

section

variable [AddCommMonoid M] (own : String → Node → M)

/-- The sum over what a slot stands for: the slot itself, and the dictionaries it refers to. -/
theorem Slot.tally_standsFor (find : Nat → Dict) (key : String) (slot : Slot) :
    Node.tally own key (slot.standsFor find) =
      own key (slot.standsFor find) + (slot.numbers.map fun n => Dict.tally own (find n)).sum := by
  cases slot with
  | value held => simp [Slot.standsFor, Node.tally]
  | dict number => simp [Slot.standsFor, Node.tally]
  | list numbers =>
      simp only [Slot.standsFor, Node.tally, Dict.tallyItems_eq_sum, List.map_map,
        Slot.numbers_list]
      rfl

/-- The sum over a dictionary: its own slots, and the dictionaries that it holds. -/
theorem Owned.tally_dictOf {s : State} (h : Owned s) {measure : String × Slot → M}
    (hmeasure : ∀ key slot find, own key (slot.standsFor find) = measure (key, slot))
    (number : Nat) :
    Dict.tally own (s.dictOf number) =
      ((s.entries number).map measure).sum +
        ((numbersOf (s.entries number)).map fun n => Dict.tally own (s.dictOf n)).sum := by
  rw [h.dictOf_eq, Dict.tally_eq_sum, List.map_map]
  generalize s.entries number = entries
  induction entries with
  | nil => simp [numbersOf]
  | cons entry rest ih =>
      simp only [List.map_cons, List.sum_cons, Function.comp_apply, numbersOf, List.flatMap_cons,
        List.map_append, List.sum_append, Slot.tally_standsFor, hmeasure] at ih ⊢
      rw [ih]
      abel

end

/-- The sum over the document is the sum over the store. Added up over all dictionaries, the sum over
what a dictionary holds counts each dictionary once, the globals and the steps aside. -/
theorem Owned.tally_document [AddCancelCommMonoid M] (own : String → Node → M) {s : State}
    (h : Owned s) {measure : String × Slot → M}
    (hmeasure : ∀ key slot find, own key (slot.standsFor find) = measure (key, slot)) :
    s.document.tally own = s.tally measure := by
  let whole : Nat → M := fun number => Dict.tally own (s.dictOf number)
  let held : List Nat := (List.range s.dicts.size).flatMap fun n => numbersOf (s.entries n)
  -- Each dictionary counts its own entries and all that it holds.
  have hall : ((List.range s.dicts.size).map whole).sum =
      s.tally measure + (held.map whole).sum := by
    have hsplit : ∀ n, whole n = ((s.entries n).map measure).sum +
        ((numbersOf (s.entries n)).map whole).sum := h.tally_dictOf own hmeasure
    have hheld : (held.map whole).sum =
        ((List.range s.dicts.size).map fun n => ((numbersOf (s.entries n)).map whole).sum).sum := by
      simp only [held]
      rw [List.map_flatMap, List.flatMap_def, List.sum_flatten, List.map_map]
      rfl
    rw [List.map_congr_left fun n _ => hsplit n, List.sum_map_add, State.tally_eq_sum_range, hheld]
  have hheld : ((List.range s.dicts.size).map whole).sum =
      whole globalsNumber + (s.steps.toList.map whole).sum + (held.map whole).sum := by
    have hsum := congrArg (fun numbers => (Multiset.map whole numbers).sum) h.held
    rw [State.references_eq, ← Multiset.coe_range] at hsum
    simp only [Multiset.cons_coe, Multiset.map_coe, Multiset.sum_coe, List.map_cons, List.sum_cons,
      List.map_append, List.sum_append] at hsum
    rw [← hsum, add_assoc, add_comm (List.map whole s.steps.toList).sum]
  -- What is held counted on both sides; without it the globals and the steps are left.
  have hdocument : s.document.tally own =
      whole globalsNumber + (s.steps.toList.map whole).sum := by
    rw [State.document_eq h, Document.tally, List.map_map]
    rfl
  rw [hdocument]
  exact add_right_cancel (hheld.symm.trans hall)

/-! ## Sums over the store, move by move -/

/-- What a new dictionary adds to the list that it stands in, if its place is in a list. -/
def Place.added [Zero M] (element : M) : Place → M
  | .topLevel => 0
  | .member _ _ => 0
  | .element _ _ => element

/-- What a new dictionary at a place adds to a sum: its own entries and, in a list, one element. -/
theorem State.tally_addAt [AddCancelCommMonoid M] {measure : String × Slot → M} {element : M}
    (hdict : ∀ key number, measure (key, .dict number) = 0)
    (hempty : ∀ key, measure (key, .list []) = 0)
    (hlist : ∀ key numbers number,
      measure (key, .list (numbers ++ [number])) = measure (key, .list numbers) + element)
    {s : State} {place : Place} (hplace : ∀ parent, place.parent? = some parent →
      parent < s.dicts.size) (hfree : s.vacancy place = .free) (fresh : Entries Slot) :
    (s.addAt fresh place).tally measure =
      s.tally measure + (fresh.map measure).sum + place.added element := by
  have hadd : (s.add fresh).tally measure = s.tally measure + (fresh.map measure).sum :=
    s.tally_add measure fresh
  -- The slot of the place is set when the dictionary is there, and its old value no longer counts.
  have hset : ∀ parent key slot, parent < s.dicts.size →
      ((s.add fresh).set parent key slot).tally measure +
          (((s.entries parent).value? key).elim 0 fun old => measure (key, old)) =
        s.tally measure + (fresh.map measure).sum + measure (key, slot) := by
    intro parent key slot hparent
    have hentries : (s.add fresh).entries parent = s.entries parent := by
      rw [entries_add, if_neg (by omega)]
    rw [← hadd, ← hentries]
    exact (s.add fresh).tally_set measure (by rw [size_add]; omega) key slot
  cases place with
  | topLevel =>
      rw [Place.added, add_zero]
      exact hadd
  | member parent key =>
      have hnone := value?_of_free_member hfree
      have hsum := hset parent key (.dict s.dicts.size) (hplace parent rfl)
      rw [hnone, Option.elim_none, add_zero, hdict] at hsum
      rw [Place.added]
      exact hsum
  | element parent key =>
      -- A list that is not there yet counts like an empty one.
      have hold : (((s.entries parent).value? key).elim 0 fun old => measure (key, old)) =
          measure (key, .list (s.elements parent key)) := by
        unfold elements
        rcases value?_of_free_element hfree with hnone | ⟨numbers, hnumbers⟩
        · rw [hnone, Option.elim_none, hempty]
        · rw [hnumbers, Option.elim_some]
      have hsum := hset parent key (.list (s.elements parent key ++ [s.dicts.size]))
        (hplace parent rfl)
      rw [hold, hlist, add_comm _ element, ← add_assoc] at hsum
      exact add_right_cancel hsum

/-- Fields that are set add what they measure. -/
theorem tally_sets [AddCancelCommMonoid M] (measure : String × Slot → M) {line : Nat}
    {fields : Payload} {s s' : State} (h : Owned s)
    (hrun : run line (Move.sets fields) s = .reached s') :
    s'.tally measure =
      s.tally measure + (fields.map fun field => measure (field.1, .value field.2)).sum := by
  induction fields generalizing s with
  | nil =>
      cases hrun
      simp
  | cons field rest ih =>
      rcases run_cons_reached hrun with ⟨middle, hset, hrest⟩
      have howned : Owned middle := h.step hset
      rw [ih howned hrest, List.map_cons, List.sum_cons, ← add_assoc]
      congr 1
      cases hset with
      | set hnew =>
          have hsum := s.tally_set measure h.current_lt field.1 (.value field.2)
          rw [hnew, Option.elim_none, add_zero] at hsum
          exact hsum

/-- The field that a slot is, if it is one. -/
def slotFields : String × Slot → Multiset (String × Value)
  | (key, .value held) => {(key, held)}
  | (_, .dict _) => 0
  | (_, .list _) => 0

/-- The number of elements of the list that a slot is, if it is one. -/
def slotElements : String × Slot → Nat
  | (_, .list numbers) => numbers.length
  | (_, .value _) => 0
  | (_, .dict _) => 0

/-- The number of top-level steps and list elements of a state. -/
def State.started (s : State) : Nat :=
  s.steps.size + s.tally slotElements

/-- The number of top-level steps and list elements that a new dictionary at a place is. -/
def Place.starts : Place → Nat
  | .topLevel => 1
  | .member _ _ => 0
  | .element _ _ => 1

/-- The number of top-level steps and list elements that a section starts. -/
def starts : Section → Nat
  | .plain _ => 0
  | .entry _ => 1
  | .step => 1

theorem State.started_addAt {s : State} {place : Place} (hplace : ∀ parent,
    place.parent? = some parent → parent < s.dicts.size) (hfree : s.vacancy place = .free)
    {fresh : Entries Slot} (hfresh : (fresh.map slotElements).sum = 0) :
    (s.addAt fresh place).started =
      s.started + place.starts := by
  have htally : (s.addAt fresh place).tally slotElements =
      s.tally slotElements + (fresh.map slotElements).sum + place.added 1 :=
    tally_addAt (fun _ _ => rfl) (fun _ => rfl) (fun _ _ _ => List.length_append) hplace hfree fresh
  rw [hfresh] at htally
  unfold started
  rw [htally]
  cases place with
  | topLevel =>
      simp only [addAt, Array.size_push, Place.added, Place.starts]
      omega
  | member parent key => rfl
  | element parent key => rfl

/-- Opening a section adds the time level, if it is that of a step. -/
theorem fields_enter {line : Nat} {opened : Section} {s s' : State} (h : Owned s)
    (henter : Transition line s (.enter opened) s') :
    s'.tally slotFields = s.tally slotFields +
      if opened = .step then {(Step.levelKey, .integer s.fastSteps)} else 0 := by
  cases henter with
  | enterAgain hheld =>
      -- A dictionary that is used again gets nothing new.
      rcases State.value?_of_held hheld with ⟨parent, key, hplace, -⟩
      rw [State.eq_plain_of_place hplace, if_neg (by simp), add_zero]
      rfl
  | enterNew hfree =>
      have htally : (s.addAt (s.newEntries opened) (s.place opened)).tally slotFields =
          s.tally slotFields + ((s.newEntries opened).map slotFields).sum +
            (s.place opened).added 0 :=
        State.tally_addAt (fun _ _ => rfl) (fun _ => rfl) (fun _ _ _ => rfl)
          (fun parent hparent => h.parent_lt hparent) hfree (s.newEntries opened)
      have hadded : (s.place opened).added (0 : Multiset (String × Value)) = 0 := by
        cases s.place opened <;> rfl
      rw [hadded, add_zero] at htally
      refine htally.trans ?_
      cases opened with
      | plain name => rfl
      | entry list => rfl
      | step => simp [State.newEntries, slotFields]

/-- Opening a section starts a step or an element, unless it is a plain one. -/
theorem started_enter {line : Nat} {opened : Section} {s s' : State} (h : Owned s)
    (henter : Transition line s (.enter opened) s') : s'.started = s.started + starts opened := by
  cases henter with
  | enterAgain hheld =>
      rcases State.value?_of_held hheld with ⟨parent, key, hplace, -⟩
      rw [State.eq_plain_of_place hplace]
      rfl
  | enterNew hfree =>
      have hfresh : ((s.newEntries opened).map slotElements).sum = 0 := by
        cases opened <;> rfl
      have hstarted := State.started_addAt (fun parent hparent => h.parent_lt hparent) hfree hfresh
      refine hstarted.trans ?_
      congr 1
      -- Only plain sections stand at a key; the others each start an element or a step.
      cases hplace : s.place opened with
      | member parent key =>
          rw [State.eq_plain_of_place hplace]
          rfl
      | topLevel =>
          cases opened with
          | plain name => cases hplace
          | entry list => rfl
          | step => rfl
      | element parent key =>
          cases opened with
          | plain name => cases hplace
          | entry list => rfl
          | step => rfl

end Builder

/-! ## The records of a log -/

namespace Record

/-- The records of the lines of a log, in order. -/
def readAll (indicator : String) : List String → List Record
  | [] => []
  | line :: following => (read? indicator line following).toList ++ readAll indicator following

/-- The record begins a step. -/
def BeginsStep (record : Record) : Prop :=
  record.label = "begin-step-attempt"

/-- The record begins an element of the list of some name. -/
def BeginsElement (record : Record) : Prop :=
  ∃ list ≠ "", record.label = "begin-" ++ list ++ "-list"

/-- How many regions of fast steps are open after a record. -/
def regionsAfter (record : Record) (regions : Nat) : Nat :=
  if record.label = "begin-fast-steps" then regions + 1
  else if record.label = "end-fast-steps" then regions - 1
  else regions

theorem beginsStep_iff {record : Record} :
    record.BeginsStep ↔ Marker.ofLabel record.label = .opens .step :=
  Marker.ofLabel_eq_opens_step.symm

theorem beginsElement_iff {record : Record} :
    record.BeginsElement ↔ ∃ list, Marker.ofLabel record.label = .opens (.entry list) := by
  constructor
  · rintro ⟨list, hlist, hlabel⟩
    exact ⟨list, Marker.ofLabel_eq_opens_entry.mpr ⟨hlist, hlabel⟩⟩
  · rintro ⟨list, hmarker⟩
    exact ⟨list, Marker.ofLabel_eq_opens_entry.mp hmarker⟩

theorem regionsAfter_eq (record : Record) (regions : Nat) :
    record.regionsAfter regions =
      match Marker.ofLabel record.label with
      | .beginsFastSteps => regions + 1
      | .endsFastSteps => regions - 1
      | _ => regions := by
  unfold regionsAfter
  by_cases hbegin : record.label = "begin-fast-steps"
  · rw [if_pos hbegin, Marker.ofLabel_eq_beginsFastSteps.mpr hbegin]
  · rw [if_neg hbegin]
    by_cases hend : record.label = "end-fast-steps"
    · rw [if_pos hend, Marker.ofLabel_eq_endsFastSteps.mpr hend]
    · rw [if_neg hend]
      cases hmarker : Marker.ofLabel record.label with
      | beginsFastSteps => exact absurd (Marker.ofLabel_eq_beginsFastSteps.mp hmarker) hbegin
      | endsFastSteps => exact absurd (Marker.ofLabel_eq_endsFastSteps.mp hmarker) hend
      | remark | opens | closes => rfl

instance : DecidablePred BeginsStep := fun record =>
  inferInstanceAs (Decidable (record.label = _))

instance : DecidablePred BeginsElement := fun record =>
  match hmarker : Marker.ofLabel record.label with
  | .opens (.entry list) => .isTrue (beginsElement_iff.mpr ⟨list, hmarker⟩)
  | .opens (.plain _) | .opens .step | .remark | .closes _ | .beginsFastSteps | .endsFastSteps =>
    .isFalse (by simp [beginsElement_iff, hmarker])

/-- The time levels of the steps that records begin: how many regions of fast steps are open
there. -/
def levels : Nat → List Record → List Nat
  | _, [] => []
  | regions, record :: rest =>
    (if record.BeginsStep then [regions] else []) ++ levels (record.regionsAfter regions) rest

end Record

namespace Builder

variable {line : Nat} {record : Record} {s s' : State}

theorem RecordStep.fastSteps_eq (hstep : RecordStep line record s s') :
    s'.fastSteps = record.regionsAfter s.fastSteps := by
  rw [Record.regionsAfter_eq]
  cases hstep with
  | remark hmarker hsets =>
      rw [hmarker]
      exact (unchanged_of_run_sets hsets).2.2
  | opens hmarker henter hsets =>
      rw [hmarker]
      exact (unchanged_of_run_sets hsets).2.2.trans henter.fastSteps_enter
  | closes hmarker _ _ hsets hleave =>
      rw [hmarker, hleave]
      exact (unchanged_of_run_sets hsets).2.2
  | beginsFastSteps hmarker hsets hfast =>
      rw [hmarker, hfast]
      exact congrArg (· + 1) (unchanged_of_run_sets hsets).2.2
  | endsFastSteps hmarker _ hsets hfast =>
      rw [hmarker, hfast]
      exact congrArg (· - 1) (unchanged_of_run_sets hsets).2.2

/-- The fields of a record are added, whatever it marks. -/
theorem fields_sets {fields : Payload} (h : Owned s)
    (hrun : run line (Move.sets fields) s = .reached s') :
    s'.tally slotFields = s.tally slotFields + (fields : Multiset (String × Value)) := by
  have hsum := tally_sets slotFields h hrun
  have hfields : (fields.map fun field => slotFields (field.1, .value field.2)).sum =
      (fields : Multiset (String × Value)) := by
    have hflat := sum_map_coe fields fun field => [field]
    rw [List.flatMap_singleton'] at hflat
    exact hflat
  rw [hsum, hfields]

theorem started_sets {fields : Payload} (h : Owned s)
    (hrun : run line (Move.sets fields) s = .reached s') : s'.started = s.started := by
  have hsum := tally_sets slotElements h hrun
  have hfields : (fields.map fun field => slotElements (field.1, .value field.2)).sum = 0 := by
    apply List.sum_eq_zero
    intro count hcount
    rcases List.mem_map.mp hcount with ⟨field, -, rfl⟩
    rfl
  unfold State.started
  rw [hsum, hfields, add_zero, (unchanged_of_run_sets hrun).2.1]

theorem RecordStep.fields (h : Owned s) (hstep : RecordStep line record s s') :
    s'.tally slotFields = s.tally slotFields + (record.payload : Multiset (String × Value)) +
      if record.BeginsStep then {(Step.levelKey, .integer s.fastSteps)} else 0 := by
  have hother : Marker.ofLabel record.label ≠ .opens .step → ¬record.BeginsStep :=
    mt Record.beginsStep_iff.mp
  cases hstep with
  | remark hmarker hsets =>
      rw [if_neg (hother (by simp [hmarker])), add_zero]
      exact fields_sets h hsets
  | @opens opened entered hmarker henter hsets =>
      rw [fields_sets (h.step henter) hsets, fields_enter h henter, add_right_comm]
      congr 1
      by_cases hopened : opened = .step
      · rw [if_pos hopened, if_pos (Record.beginsStep_iff.mpr (hopened ▸ hmarker))]
      · rw [if_neg hopened, if_neg (hother (by simpa [hmarker] using hopened))]
  | closes hmarker _ _ hsets hleave =>
      have hfilled := fields_sets h hsets
      rw [if_neg (hother (by simp [hmarker])), add_zero, hleave]
      exact hfilled
  | beginsFastSteps hmarker hsets hfast =>
      have hfilled := fields_sets h hsets
      rw [if_neg (hother (by simp [hmarker])), add_zero, hfast]
      exact hfilled
  | endsFastSteps hmarker _ hsets hfast =>
      have hfilled := fields_sets h hsets
      rw [if_neg (hother (by simp [hmarker])), add_zero, hfast]
      exact hfilled

theorem RecordStep.started (h : Owned s) (hstep : RecordStep line record s s') :
    s'.started = s.started +
      ((if record.BeginsStep then 1 else 0) + if record.BeginsElement then 1 else 0) := by
  have hstarts : (if record.BeginsStep then 1 else 0) + (if record.BeginsElement then 1 else 0) =
      match Marker.ofLabel record.label with
      | .opens opened => starts opened
      | _ => 0 := by
    cases hmarker : Marker.ofLabel record.label with
    | opens opened =>
        cases opened <;> simp [starts, Record.beginsStep_iff, Record.beginsElement_iff, hmarker]
    | remark | closes | beginsFastSteps | endsFastSteps =>
        simp [Record.beginsStep_iff, Record.beginsElement_iff, hmarker]
  rw [hstarts]
  cases hstep with
  | remark hmarker hsets =>
      rw [hmarker]
      exact started_sets h hsets
  | opens hmarker henter hsets =>
      rw [hmarker, started_sets (h.step henter) hsets]
      exact started_enter h henter
  | closes hmarker _ _ hsets hleave =>
      have hfilled := started_sets h hsets
      rw [hmarker, hleave]
      exact hfilled
  | beginsFastSteps hmarker hsets hfast =>
      have hfilled := started_sets h hsets
      rw [hmarker, hfast]
      exact hfilled
  | endsFastSteps hmarker _ hsets hfast =>
      have hfilled := started_sets h hsets
      rw [hmarker, hfast]
      exact hfilled

/-- What the records of the lines of a log add to the fields and to the steps and elements. -/
theorem conserved_of_runLines {indicator : String} {lines : List String} {number : Nat} (h : Owned s)
    (hrun : runLines indicator number lines s = .reached s') :
    s'.tally slotFields = s.tally slotFields +
        (((Record.readAll indicator lines).map fun record =>
          (record.payload : Multiset (String × Value))).sum +
        ((Record.levels s.fastSteps (Record.readAll indicator lines)).map fun level : Nat =>
          (Step.levelKey, Value.integer level) : List (String × Value))) ∧
      s'.started = s.started +
        ((Record.readAll indicator lines).countP Record.BeginsStep +
          (Record.readAll indicator lines).countP Record.BeginsElement) := by
  -- The levels of later steps depend on the regions that are open by then.
  induction lines generalizing number s with
  | nil =>
      cases hrun
      exact ⟨by simp [Record.readAll, Record.levels], rfl⟩
  | cons line following ih =>
      obtain ⟨middle, hline, hfollowing⟩ := runLines_cons_reached hrun
      have howned : Owned middle := run_invariant (fun hs hstep => hs.step hstep) h hline
      rcases ih howned hfollowing with ⟨hfields, hstarted⟩
      rcases recordStep_of_run_ofLine hline with ⟨hread, rfl⟩ | ⟨record, hread, hstep⟩
      · simp only [Record.readAll, hread, Option.toList_none, List.nil_append]
        exact ⟨hfields, hstarted⟩
      · rw [hstep.fastSteps_eq, hstep.fields h] at hfields
        rw [hstep.started h] at hstarted
        simp only [Record.readAll, hread, Option.toList_some, List.singleton_append,
          Record.levels, List.map_cons, List.sum_cons, List.map_append, List.countP_cons,
          decide_eq_true_eq, ← Multiset.coe_add]
        refine ⟨?_, by omega⟩
        rw [hfields]
        split
        · simp only [List.map_cons, List.map_nil, Multiset.coe_singleton]
          abel
        · simp only [List.map_nil, Multiset.coe_nil]
          abel

end Builder

/-- Nothing is lost, duplicated or made up. The fields of a document are those of the records of its
log, and one for each step that a record begins, with its time level; and its top-level steps and
list elements are as many as the records that begin a step or an element. -/
theorem Document.fields_elements_conserved {options : Options} {lines : List String} {document : Document}
    (h : Document.ofLines options lines = .ok document) :
    document.fields =
        ((Record.readAll options.arrayIndicator lines).map fun record =>
          (record.payload : Multiset (String × Value))).sum +
        ((Record.levels 0 (Record.readAll options.arrayIndicator lines)).map fun level : Nat =>
          (Step.levelKey, Value.integer level) : List (String × Value)) ∧
      document.steps.length + document.elements =
        (Record.readAll options.arrayIndicator lines).countP Record.BeginsStep +
          (Record.readAll options.arrayIndicator lines).countP Record.BeginsElement := by
  rcases Builder.reached_of_ofLines h with ⟨s, hrun, hdocument⟩
  have howned : Builder.Owned s := Builder.owned_of_runLines hrun
  rcases Builder.conserved_of_runLines Builder.Owned.initial hrun with ⟨hfields, hstarted⟩
  rw [Builder.State.tally_initial, zero_add] at hfields
  have hstore : document.fields = s.tally Builder.slotFields := by
    rw [hdocument]
    apply howned.tally_document
    intro key slot find
    cases slot <;> rfl
  have helements : document.elements = s.tally Builder.slotElements := by
    rw [hdocument]
    apply howned.tally_document
    intro key slot find
    cases slot <;> simp [Builder.Slot.standsFor, Node.items, Builder.slotElements]
  have hsteps : document.steps.length = s.steps.size := by
    rw [hdocument, Builder.State.document_eq howned]
    simp
  refine ⟨hstore.trans hfields, ?_⟩
  rw [helements, hsteps]
  unfold Builder.State.started at hstarted
  rw [Builder.State.tally_initial] at hstarted
  simpa [Builder.State.initial] using hstarted

/-- A log with fields on a region of fast steps, a section that is opened again, and sections that
are still open at its end. -/
def interruptedLog : List String :=
  ["[INFO][rank 0][MRI][begin-step-attempt] step = 1",
    "[INFO][rank 0][MRI][begin-nls]",
    "[INFO][rank 0][MRI][begin-fast-steps] h = 2",
    "[INFO][rank 0][ERK][begin-step-attempt] k = 3",
    "[INFO][rank 0][ERK][end-step-attempt]",
    "[INFO][rank 0][MRI][end-nls]",
    "[INFO][rank 0][MRI][begin-nls] y = a",
    "[INFO][rank 0][MRI][begin-stage-list] y = b"]

/-- The document of that log. -/
def interruptedDocument : Document where
  globals := []
  steps :=
    [[(Step.levelKey, .value (.integer 0)),
      ("step", .value (.integer 1)),
      ("nls", .dict
        [("h", .value (.integer 2)),
          ("y", .value (.text "a")),
          ("stage", .list [[("y", .value (.text "b"))]])]),
      (Step.timeLevelKey 1, .list
        [[(Step.levelKey, .value (.integer 1)), ("k", .value (.integer 3))]])]]

theorem Document.fields_elements_conserved_interrupted :
    Document.ofLines {} interruptedLog = .ok interruptedDocument ∧
      interruptedDocument.fields =
        ((Record.readAll Payload.defaultIndicator interruptedLog).map fun record =>
          (record.payload : Multiset (String × Value))).sum +
        ((Record.levels 0 (Record.readAll Payload.defaultIndicator interruptedLog)).map
          fun level : Nat => (Step.levelKey, Value.integer level) : List (String × Value)) ∧
      interruptedDocument.steps.length + interruptedDocument.elements =
        (Record.readAll Payload.defaultIndicator interruptedLog).countP Record.BeginsStep +
          (Record.readAll Payload.defaultIndicator interruptedLog).countP Record.BeginsElement := by
  have hread : Document.ofLines {} interruptedLog = .ok interruptedDocument := by decide +kernel
  exact ⟨hread, Document.fields_elements_conserved hread⟩

end SolverLog
