import SolverLog.Proofs.Likeness
import SolverLog.Proofs.Refinement

/-!
# Documents grow

Reading on never takes anything back. The document of a log is embedded in that of a longer one:
keys keep their places and what they hold, arrays and lists only get more items at their ends, and
the steps come first.

* `Document.EmbedsIn` — a document within a larger one.
* `State.EmbedsIn` — the same of states, with numbers for dictionaries; every transition grows the
  state (`State.EmbedsIn.step`).
* `Document.embedsIn_of_append` — a log that is cut off anywhere has a smaller document.
-/

namespace SolverLog

/-! ## Documents within documents -/

/-- A value that stays as it is, or an array that may get more items at its end. -/
inductive Value.GrowsTo : Value → Value → Prop where
  | same (value : Value) : GrowsTo value value
  | array (items more : List Value) : GrowsTo (.array items) (.array (items ++ more))

/-- The items of a list are related to the first items of another one, place by place. -/
inductive PrefixBy {α β : Type} (R : α → β → Prop) : List α → List β → Prop where
  | nil (more : List β) : PrefixBy R [] more
  | cons {a : α} {b : β} {items : List α} {items' : List β} (hfirst : R a b)
      (hrest : PrefixBy R items items') : PrefixBy R (a :: items) (b :: items')

/-- The keys of entries are the first keys of other ones, in the same order, and what they hold is
related. -/
inductive Entries.EmbedIn {α β : Type} (R : α → β → Prop) : Entries α → Entries β → Prop where
  | nil (more : Entries β) : EmbedIn R [] more
  | cons {key : String} {a : α} {b : β} {d : Entries α} {e : Entries β} (hvalue : R a b)
      (hrest : EmbedIn R d e) : EmbedIn R ((key, a) :: d) ((key, b) :: e)

/-- A node within a larger one of its kind: a value may grow, a dictionary is embedded, and the
dictionaries of a list are embedded in the first ones of the other list. -/
inductive Node.EmbedsIn : Node → Node → Prop where
  | value {v w : Value} (h : v.GrowsTo w) : EmbedsIn (.value v) (.value w)
  | dict {d e : Dict} (h : Entries.EmbedIn Node.EmbedsIn d e) : EmbedsIn (.dict d) (.dict e)
  | list {ds es : List Dict} (h : PrefixBy (Entries.EmbedIn Node.EmbedsIn) ds es) :
      EmbedsIn (.list ds) (.list es)

/-- A document within a larger one. -/
structure Document.EmbedsIn (first second : Document) : Prop where
  globals : Entries.EmbedIn Node.EmbedsIn first.globals second.globals
  steps : PrefixBy (Entries.EmbedIn Node.EmbedsIn) first.steps second.steps

/-- The keys of entries stay keys. -/
theorem Entries.EmbedIn.mem_keys {α β : Type} {R : α → β → Prop} {d : Entries α} {e : Entries β}
    (h : EmbedIn R d e) {key : String} (hkey : key ∈ d.keys) : key ∈ e.keys := by
  induction h with
  | nil => cases hkey
  | cons _ _ ih =>
      rcases List.mem_cons.mp hkey with rfl | hrest
      · exact List.mem_cons_self
      · exact List.mem_cons_of_mem _ (ih hrest)

theorem Value.GrowsTo.trans {u v w : Value} (h : u.GrowsTo v) (h' : v.GrowsTo w) : u.GrowsTo w := by
  cases h with
  | same => exact h'
  | array items more =>
      cases h' with
      | same => exact .array items more
      | array _ further =>
          rw [List.append_assoc]
          exact .array items (more ++ further)

/-- The results of an initial part of a list. -/
theorem PrefixBy.map {α β γ : Type} {R : β → γ → Prop} {f : α → β} {g : α → γ}
    {items items' : List α} (hinitial : items <+: items') (h : ∀ a ∈ items, R (f a) (g a)) :
    PrefixBy R (items.map f) (items'.map g) := by
  obtain ⟨more, rfl⟩ := hinitial
  induction items with
  | nil => exact .nil _
  | cons item rest ih =>
      refine .cons (h item List.mem_cons_self) (ih ?_)
      intro a ha
      exact h a (List.mem_cons_of_mem _ ha)

/-- An array ends before more lines that are added, or goes on into them. -/
theorem Payload.arrayOf_append_cases (following more : List String) :
    arrayOf (following ++ more) = arrayOf following ∨
      arrayOf (following ++ more) =
        .array ((following.takeWhile isArrayLine).map Value.ofLiteral ++
          (more.takeWhile isArrayLine).map Value.ofLiteral) := by
  unfold arrayOf
  rw [List.takeWhile_append]
  split
  · next hwhole =>
      have hall : following.takeWhile isArrayLine = following :=
        (List.takeWhile_prefix isArrayLine).eq_of_length hwhole
      right
      rw [List.map_append, hall]
  · exact Or.inl rfl

/-- An array read with more lines after it may be longer. -/
theorem Payload.arrayOf_growsTo (following more : List String) :
    (arrayOf following).GrowsTo (arrayOf (following ++ more)) := by
  rcases arrayOf_append_cases following more with hends | hgoesOn
  · rw [hends]
    exact .same _
  · rw [hgoesOn]
    exact .array _ _

namespace Entries.EmbedIn

variable {α β γ : Type} {R : α → α → Prop}

theorem refl (hrefl : ∀ a, R a a) (d : Entries α) : EmbedIn R d d := by
  induction d with
  | nil => exact .nil []
  | cons entry rest ih => exact .cons (hrefl entry.2) ih

theorem trans (htrans : ∀ a b c, R a b → R b c → R a c) {d e f : Entries α} (h : EmbedIn R d e)
    (h' : EmbedIn R e f) : EmbedIn R d f := by
  induction h generalizing f with
  | nil => exact .nil f
  | cons hvalue _ ih =>
      cases h' with
      | cons hvalue' hrest' => exact .cons (htrans _ _ _ hvalue hvalue') (ih hrest')

/-- Setting a key that is new, or to something that what it held is related to. -/
theorem put (hrefl : ∀ a, R a a) {d : Entries α} {key : String} {a : α}
    (hold : ∀ old, d.value? key = some old → R old a) : EmbedIn R d (d.put key a) := by
  induction d with
  | nil => exact .nil _
  | cons entry rest ih =>
      obtain ⟨other, old⟩ := entry
      by_cases hkey : other = key
      · simp only [Entries.put, hkey, if_true]
        exact .cons (hold old (by simp [Entries.value?, hkey])) (.refl hrefl rest)
      · simp only [Entries.put, hkey, if_false]
        refine .cons (hrefl old) (ih ?_)
        intro old' hold'
        exact hold old' (by simpa [Entries.value?, hkey] using hold')

/-- What the entries of a store stand for, if what their slots stand for is related. -/
theorem map {S : β → γ → Prop} {T : α → α → Prop} {f : α → β} {g : α → γ} {d e : Entries α}
    (h : EmbedIn T d e) (hmap : ∀ entry ∈ d, ∀ b, T entry.2 b → S (f entry.2) (g b)) :
    EmbedIn S (d.map fun entry => (entry.1, f entry.2)) (e.map fun entry => (entry.1, g entry.2)) := by
  induction h with
  | nil => exact .nil _
  | cons hvalue _ ih =>
      refine .cons (hmap _ List.mem_cons_self _ hvalue) (ih ?_)
      intro entry hentry
      exact hmap entry (List.mem_cons_of_mem _ hentry)

/-- Entries that are alike are embedded. -/
theorem of_alike {S : α → β → Prop} {T : α → β → Prop} {d : Entries α} {e : Entries β}
    (h : Entries.Alike S d e) (himp : ∀ a b, S a b → T a b) : EmbedIn T d e := by
  induction h with
  | nil => exact .nil []
  | cons hvalue _ ih => exact .cons (himp _ _ hvalue) ih

end Entries.EmbedIn

namespace Builder

/-! ## States within states -/

/-- A slot that may grow: a value, or a list of dictionaries. -/
inductive Slot.EmbedsIn : Slot → Slot → Prop where
  | value {v w : Value} (h : v.GrowsTo w) : EmbedsIn (.value v) (.value w)
  | dict (number : Nat) : EmbedsIn (.dict number) (.dict number)
  | list {numbers numbers' : List Nat} (h : numbers <+: numbers') :
      EmbedsIn (.list numbers) (.list numbers')

/-- A state within a later one: every dictionary is within that of the same number. -/
structure State.EmbedsIn (s t : State) : Prop where
  entries : ∀ number, Entries.EmbedIn Slot.EmbedsIn (s.entries number) (t.entries number)
  steps : s.steps.toList <+: t.steps.toList

theorem Slot.EmbedsIn.refl (slot : Slot) : slot.EmbedsIn slot := by
  cases slot with
  | value held => exact .value (.same held)
  | dict number => exact .dict number
  | list numbers => exact .list (List.prefix_refl numbers)

theorem Slot.EmbedsIn.trans {a b c : Slot} (h : a.EmbedsIn b) (h' : b.EmbedsIn c) :
    a.EmbedsIn c := by
  cases h with
  | value hvalue =>
      cases h' with
      | value hvalue' => exact .value (hvalue.trans hvalue')
  | dict number => exact h'
  | list hlist =>
      cases h' with
      | list hlist' => exact .list (hlist.trans hlist')

namespace State.EmbedsIn

variable {s t u : State}

theorem refl (s : State) : s.EmbedsIn s where
  entries := fun number => .refl Slot.EmbedsIn.refl (s.entries number)
  steps := List.prefix_refl _

theorem trans (h : s.EmbedsIn t) (h' : t.EmbedsIn u) : s.EmbedsIn u where
  entries := by
    intro number
    refine Entries.EmbedIn.trans ?_ (h.entries number) (h'.entries number)
    exact fun _ _ _ => Slot.EmbedsIn.trans
  steps := h.steps.trans h'.steps

/-- Two states with the same dictionaries and steps. -/
theorem of_eq (hdicts : s.dicts = t.dicts) (hsteps : s.steps = t.steps) : s.EmbedsIn t where
  entries := by
    intro number
    have hentries : s.entries number = t.entries number := by
      unfold State.entries
      rw [hdicts]
    rw [hentries]
    exact .refl Slot.EmbedsIn.refl _
  steps := hsteps ▸ List.prefix_refl _

/-- States that are alike, but for arrays that grow. -/
theorem of_alike (h : s.Alike Value.GrowsTo t) : s.EmbedsIn t where
  entries := by
    intro number
    apply Entries.EmbedIn.of_alike (h.entries number)
    intro a b hslot
    cases hslot with
    | value hvalue => exact .value hvalue
    | dict number => exact .dict number
    | list numbers => exact .list (List.prefix_refl numbers)
  steps := h.steps_eq ▸ List.prefix_refl _

/-! ## Transitions -/

/-- Setting a key of one dictionary, and adding a new one or none. -/
theorem of_put {number : Nat} {key : String} {slot : Slot}
    (hput : t.entries number = (s.entries number).put key slot)
    (hold : ∀ old, (s.entries number).value? key = some old → old.EmbedsIn slot)
    (hrest : ∀ other < s.dicts.size, other ≠ number → t.entries other = s.entries other)
    (hsteps : t.steps = s.steps) : s.EmbedsIn t where
  entries := by
    intro other
    by_cases hother : other = number
    · rw [hother, hput]
      exact .put Slot.EmbedsIn.refl hold
    · by_cases hsize : other < s.dicts.size
      · rw [hrest other hsize hother]
        exact .refl Slot.EmbedsIn.refl _
      · rw [entries_of_size_le (Nat.le_of_not_lt hsize)]
        exact .nil _
  steps := hsteps ▸ List.prefix_refl _

/-- A dictionary that is added at a free place. -/
theorem addAt (fresh : Entries Slot) {place : Place}
    (hparent : ∀ parent, place.parent? = some parent → parent < s.dicts.size)
    (hfree : s.vacancy place = .free) : s.EmbedsIn (s.addAt fresh place) := by
  cases place with
  | topLevel =>
      refine ⟨?_, ?_⟩
      · intro other
        have hentries : (s.addAt fresh .topLevel).entries other =
            if other = s.dicts.size then fresh else s.entries other := s.entries_add fresh other
        rw [hentries]
        split
        · next hsize =>
            rw [entries_of_size_le (Nat.le_of_eq hsize.symm)]
            exact .nil _
        · exact .refl Slot.EmbedsIn.refl _
      · rw [State.addAt, Array.toList_push]
        exact List.prefix_append _ _
  | member parent key =>
      obtain ⟨hput, -, hrest⟩ :=
        entries_add_set fresh (hparent parent rfl) key (.dict s.dicts.size)
      refine of_put hput ?_ (fun other hother hne => hrest other hne (by omega)) rfl
      intro old hold
      rw [value?_of_free_member hfree] at hold
      cases hold
  | element parent key =>
      obtain ⟨hput, -, hrest⟩ :=
        entries_add_set fresh (hparent parent rfl) key
          (.list (s.elements parent key ++ [s.dicts.size]))
      refine of_put hput ?_ (fun other hother hne => hrest other hne (by omega)) rfl
      intro old hold
      -- A place in a list is free at a key that has a list, which then grows.
      rcases value?_of_free_element hfree with hnone | ⟨numbers, hlist⟩
      · rw [hnone] at hold
        cases hold
      · rw [hlist] at hold
        cases hold
        have helements : s.elements parent key = numbers := by simp [State.elements, hlist]
        rw [helements]
        exact .list (List.prefix_append _ _)

/-- Every transition grows the state. -/
theorem step (h : Owned s) {line : Nat} {move : Move} (hstep : Transition line s move t) :
    s.EmbedsIn t := by
  cases hstep with
  | skip | expect | expectFast => exact refl s
  | leave | enterFast | leaveFast | enterAgain => exact of_eq rfl rfl
  | @set key value hnew =>
      have hentries := s.entries_set h.current_lt key (.value value)
      have hput : (s.set s.current key (.value value)).entries s.current =
          (s.entries s.current).put key (.value value) := by
        rw [hentries, if_pos rfl]
      refine of_put hput ?_ ?_ rfl
      · intro old hold
        rw [hnew] at hold
        cases hold
      · intro other _ hne
        rw [hentries, if_neg hne]
  | @enterNew opened hfree =>
      have hadded := addAt (s.newEntries opened) (fun parent hparent => h.parent_lt hparent) hfree
      exact hadded.trans (of_eq rfl rfl)

/-! ## What the states stand for -/

/-- What a slot stands for is within what a larger slot stands for. -/
theorem standsFor {find find' : Nat → Dict} {a b : Slot} (h : a.EmbedsIn b)
    (hfind : ∀ number ∈ a.numbers, Entries.EmbedIn Node.EmbedsIn (find number) (find' number)) :
    (a.standsFor find).EmbedsIn (b.standsFor find') := by
  cases h with
  | value hvalue => exact .value hvalue
  | dict number => exact .dict (hfind number (by simp))
  | list hlist => exact .list (.map hlist hfind)

/-- What a number stands for is within what it stands for later. -/
theorem dictOf (h : s.EmbedsIn t) (hs : Owned s) (ht : Owned t) (number : Nat) :
    Entries.EmbedIn Node.EmbedsIn (s.dictOf number) (t.dictOf number) := by
  -- The induction goes from the last dictionary down, since holders have smaller numbers.
  induction hsize : s.dicts.size - number using Nat.strong_induction_on generalizing number with
  | _ size ih =>
      rw [hs.dictOf_eq, ht.dictOf_eq]
      apply (h.entries number).map
      intro entry hentry slot hslot
      apply standsFor hslot
      intro child hchild
      have hlater : number < child := hs.later number entry hentry child hchild
      have hlt : child < s.dicts.size := hs.child_lt hentry hchild
      exact ih (s.dicts.size - child) (by omega) child rfl

/-- The document of a state is within that of a later one. -/
theorem document (h : s.EmbedsIn t) (hs : Owned s) (ht : Owned t) :
    s.document.EmbedsIn t.document := by
  rw [State.document_eq hs, State.document_eq ht]
  exact ⟨h.dictOf hs ht globalsNumber, .map h.steps fun number _ => h.dictOf hs ht number⟩

end State.EmbedsIn

/-- The moves of a line only grow the state. -/
theorem embedsIn_of_run {line : Nat} {moves : List Move} {s t : State} (hs : Owned s)
    (h : run line moves s = .reached t) : Owned t ∧ s.EmbedsIn t := by
  apply run_invariant (P := fun u => Owned u ∧ s.EmbedsIn u) _ ⟨hs, .refl s⟩ h
  intro u move u' hu hstep
  exact ⟨hu.1.step hstep, hu.2.trans (.step hu.1 hstep)⟩

/-- Lines that are carried out only grow the state. -/
theorem embedsIn_of_runLines {indicator : String} {number : Nat} {lines : List String} {s t : State}
    (hs : Owned s) (h : runLines indicator number lines s = .reached t) :
    Owned t ∧ s.EmbedsIn t := by
  apply runLines_invariant (P := fun u => Owned u ∧ s.EmbedsIn u) _ ⟨hs, .refl s⟩ h
  intro line u move u' hu hstep
  exact ⟨hu.1.step hstep, hu.2.trans (.step hu.1 hstep)⟩

/-- Lines that are carried out with more lines after them have the same effect, but for arrays that
go on into those lines. -/
theorem embedsIn_of_more {indicator : String} {number : Nat} {lines more : List String}
    {s t t' : State} (h : runLines indicator number lines s = .reached t)
    (h' : runMoves number (Move.ofLines indicator more lines) s = .reached t') : t.EmbedsIn t' := by
  have harray : ∀ rest, (Payload.arrayOf (rest ++ [])).GrowsTo (Payload.arrayOf (rest ++ more)) := by
    intro rest
    rw [List.append_nil]
    exact Payload.arrayOf_growsTo rest more
  have halike := runMoves_alike Value.GrowsTo.same number
    (Move.ofLines_alike Value.GrowsTo.same indicator harray lines) (.refl Value.GrowsTo.same s)
  rw [← runLines_eq_runMoves, h, h'] at halike
  cases halike with
  | reached hstates => exact .of_alike hstates

end Builder

/-- A document only grows. If a log has a document, and so has the log with more lines after it, then
the first document is embedded in the second one. -/
theorem Document.embedsIn_of_append {options : Options} {lines more : List String}
    {first second : Document} (h : Document.ofLines options lines = .ok first)
    (h' : Document.ofLines options (lines ++ more) = .ok second) : first.EmbedsIn second := by
  obtain ⟨s, hrun, rfl⟩ := Builder.reached_of_ofLines h
  obtain ⟨t, hrun', rfl⟩ := Builder.reached_of_ofLines h'
  -- The longer log passes through a state in which its first lines are carried out.
  rw [Builder.runLines_append] at hrun'
  cases hmiddle : Builder.runMoves 1 (Builder.Move.ofLines options.arrayIndicator more lines)
      .initial with
  | refused error last =>
      rw [hmiddle] at hrun'
      cases hrun'
  | reached middle =>
      rw [hmiddle] at hrun'
      have howned : Builder.Owned middle :=
        Builder.runMoves_invariant (fun hs hstep => hs.step hstep) .initial hmiddle
      obtain ⟨hlast, hgrown⟩ := Builder.embedsIn_of_runLines howned hrun'
      exact ((Builder.embedsIn_of_more hrun hmiddle).trans hgrown).document
        (Builder.owned_of_runLines hrun) hlast

/-- A log that is cut off within an array, in a section of a step, while fast steps go on. -/
def cutLog : List String :=
  ["[INFO][rank 0][MRI][begin-step-attempt] h = 2",
    "[INFO][rank 0][MRI][begin-nls]",
    "[INFO][rank 0][MRI][begin-fast-steps]",
    "[INFO][rank 0][ERK][begin-step-attempt]",
    "[INFO][rank 0][ERK][end-step-attempt] y(:) =",
    "1"]

/-- The rest of that log. -/
def cutLogRest : List String :=
  ["2",
    "[INFO][rank 0][ERK][begin-step-attempt]",
    "[INFO][rank 0][ERK][end-step-attempt] y(:) =",
    "3",
    "[INFO][rank 0][MRI][end-fast-steps] k = 4",
    "[INFO][rank 0][MRI][end-nls]",
    "[INFO][rank 0][MRI][end-step-attempt]"]

/-- A fast step with an array. -/
def fastStepWith (items : List Value) : Dict :=
  [(Step.levelKey, .value (.integer 1)), ("y(:)", .value (.array items))]

/-- A step with a section and fast steps, as that log has them. -/
def cutDocument (fields : Dict) (fast : List Dict) : Document where
  globals := []
  steps :=
    [[(Step.levelKey, .value (.integer 0)),
      ("h", .value (.integer 2)),
      ("nls", .dict fields),
      (Step.timeLevelKey 1, .list fast)]]

theorem Document.embedsIn_of_append_cut :
    Document.ofLines {} cutLog = .ok (cutDocument [] [fastStepWith [.integer 1]]) ∧
      Document.ofLines {} (cutLog ++ cutLogRest) =
        .ok (cutDocument [("k", .value (.integer 4))]
          [fastStepWith [.integer 1, .integer 2], fastStepWith [.integer 3]]) ∧
      (cutDocument [] [fastStepWith [.integer 1]]).EmbedsIn
        (cutDocument [("k", .value (.integer 4))]
          [fastStepWith [.integer 1, .integer 2], fastStepWith [.integer 3]]) := by
  have hfirst : Document.ofLines {} cutLog =
      .ok (cutDocument [] [fastStepWith [.integer 1]]) := by decide +kernel
  have hsecond : Document.ofLines {} (cutLog ++ cutLogRest) =
      .ok (cutDocument [("k", .value (.integer 4))]
        [fastStepWith [.integer 1, .integer 2], fastStepWith [.integer 3]]) := by decide +kernel
  exact ⟨hfirst, hsecond, Document.embedsIn_of_append hfirst hsecond⟩

end SolverLog
