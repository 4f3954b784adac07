import Mathlib.Data.List.Chain
import SolverLog.Proofs.Clash
import SolverLog.Proofs.Depths
import SolverLog.Proofs.Stacking

/-!
# The store and the open sections fit together

Whatever records are carried out one after the other, and also where one of them is refused, the
dictionaries of the open sections lie within each other and in the store, and every dictionary but
that of the globals is referred to once. So nothing that is looked up is missing, neither while
records are carried out nor while the document is put together.

* `Nested` — the open sections, one within the other; every transition preserves it (`Nested.step`).
* `run?`, `State.document?` — carrying out moves and putting together a document where nothing may be
  missing.
* `Sound` — what holds of the store and of the stack of open sections.
* `sound_of_runRecords` — it holds after any records, and nothing is missing.
-/

namespace SolverLog.Builder

variable {s t : State} {line : Nat} {opened : Section}

/-- A dictionary holds that of an open section where the section says: at its name, or in the list
that it names. A step may stand in any dictionary, or in none. -/
def State.Binds (s : State) (parent : Nat) (opened : Section) (child : Nat) : Prop :=
  match opened with
  | .plain name => (s.entries parent).value? name = some (.dict child)
  | .entry list =>
    ∃ numbers, (s.entries parent).value? list = some (.list numbers) ∧ child ∈ numbers
  | .step => True

/-- What is bound stays bound in every later state. -/
theorem State.EmbedsIn.binds (h : s.EmbedsIn t) {parent child : Nat}
    (hbinds : s.Binds parent opened child) : t.Binds parent opened child := by
  cases opened with
  | plain name => exact h.value?_dict hbinds
  | entry list =>
      obtain ⟨numbers, hvalue, hchild⟩ := hbinds
      obtain ⟨slot, hslot, hgrown⟩ := (h.entries parent).value? hvalue
      cases hgrown with
      | @list _ numbers' hprefix => exact ⟨numbers', hslot, hprefix.subset hchild⟩
  | step => trivial

/-- A section that is opened is bound in the dictionary that was current, and its own dictionary comes
after that one. -/
theorem Transition.binds_enter (howned : Owned s) (hstep : Transition line s (.enter opened) t) :
    ∃ child, t.frames = ⟨child, opened, s.depth + 1, line⟩ :: s.frames ∧
      s.current < child ∧ t.Binds s.current opened child := by
  cases hstep with
  | enterNew hfree =>
      refine ⟨s.dicts.size, by simp [State.enter], howned.current_lt, ?_⟩
      cases opened with
      | plain name =>
          have hput := (State.entries_add_set (s.newEntries (.plain name)) howned.current_lt name
            (.dict s.dicts.size)).1
          show Entries.value? (State.entries (State.set _ _ _ _) _) name = _
          rw [hput, Entries.value?_put, if_pos rfl]
      | entry list =>
          have hput := (State.entries_add_set (s.newEntries (.entry list)) howned.current_lt list
            (.list (s.elements s.current list ++ [s.dicts.size]))).1
          refine ⟨s.elements s.current list ++ [s.dicts.size], ?_, by simp⟩
          show Entries.value? (State.entries (State.set _ _ _ _) _) list = _
          rw [hput, Entries.value?_put, if_pos rfl]
      | step => trivial
  | @enterAgain _ number hheld =>
      obtain ⟨parent, key, hplace, hvalue⟩ := State.value?_of_held hheld
      -- Only a plain section is opened again.
      obtain rfl := State.eq_plain_of_place hplace
      cases hplace
      refine ⟨number, rfl, ?_, hvalue⟩
      exact howned.later s.current _ (Entries.mem_of_value? hvalue) number (by simp)

/-! ## Sections within each other -/

/-- Some open sections, innermost first, lie within each other. -/
inductive Nested (s : State) : List Frame → Prop where
  | nil : Nested s []
  | cons {frame : Frame} {outer : List Frame} (hlater : innermost outer < frame.dict)
      (hbinds : s.Binds (innermost outer) frame.opened frame.dict) (houter : Nested s outer) :
      Nested s (frame :: outer)

namespace Nested

variable {frames : List Frame}

theorem mono (h : Nested s frames) (hembeds : s.EmbedsIn t) : Nested t frames := by
  induction h with
  | nil => exact .nil
  | cons hlater hbinds _ ih => exact .cons hlater (hembeds.binds hbinds) ih

theorem tail (h : Nested s frames) : Nested s frames.tail := by
  cases h with
  | nil => exact .nil
  | cons _ _ houter => exact houter

/-- Every transition keeps the open sections within each other. -/
theorem step (h : Nested s s.frames) (howned : Owned s) {move : Move}
    (hstep : Transition line s move t) : Nested t t.frames := by
  have hmono : Nested t s.frames := h.mono (.step howned hstep)
  cases move with
  | skip | expect _ | enterFast | expectFast | leaveFast =>
      cases hstep
      exact hmono
  | set key value =>
      cases hstep
      exact hmono
  | leave =>
      cases hstep
      exact hmono.tail
  | enter opened =>
      obtain ⟨child, hframes, hlater, hbinds⟩ := hstep.binds_enter howned
      rw [s.current_eq] at hlater hbinds
      rw [hframes]
      exact .cons hlater hbinds hmono

end Nested

/-! ## The stack of open sections -/

/-- An open section on the stack, or the globals at its bottom. -/
structure Layer where
  /-- The number of the dictionary of the section. -/
  dict : Nat
  /-- The section, if it is not the globals. -/
  opened : Option Section
  depth : Nat
deriving DecidableEq

/-- The globals, as they lie at the bottom of the stack. -/
def Layer.globals : Layer := ⟨globalsNumber, none, 0⟩

/-- An open section, as it lies on the stack. -/
def Frame.layer (frame : Frame) : Layer := ⟨frame.dict, some frame.opened, frame.depth⟩

/-- The globals and the open sections on them, from the bottom to the top. -/
def stackOf : List Frame → List Layer
  | [] => [.globals]
  | frame :: outer => stackOf outer ++ [frame.layer]

/-- The stack of a state. -/
def State.stack (s : State) : List Layer :=
  stackOf s.frames

@[simp] theorem length_stackOf (frames : List Frame) :
    (stackOf frames).length = frames.length + 1 := by
  induction frames with
  | nil => rfl
  | cons frame outer ih => simp [stackOf, ih]

/-- A layer is on the stack below the innermost section, or it is that section. -/
theorem getElem?_stackOf_cons {frame : Frame} {outer : List Frame} {index : Nat} {layer : Layer}
    (h : (stackOf (frame :: outer))[index]? = some layer) :
    (stackOf outer)[index]? = some layer ∨ index = outer.length + 1 ∧ layer = frame.layer := by
  rw [stackOf, List.getElem?_append] at h
  split at h
  · exact Or.inl h
  · next hge =>
      obtain ⟨hindex, rfl⟩ := List.getElem?_eq_some_iff.mp h
      simp only [length_stackOf, List.length_singleton] at hge hindex
      exact Or.inr ⟨by omega, by simp⟩

theorem getLast?_stackOf (frames : List Frame) :
    (stackOf frames).getLast?.map Layer.dict = some (innermost frames) := by
  cases frames with
  | nil => rfl
  | cons frame outer => simp [stackOf, innermost, Frame.layer]

theorem head?_stackOf (frames : List Frame) : (stackOf frames).head? = some .globals := by
  induction frames with
  | nil => rfl
  | cons frame outer ih => simp [stackOf, List.head?_append, ih]

/-- The globals are at the bottom of the stack only. -/
theorem opened_eq_none_iff {frames : List Frame} {index : Nat} {layer : Layer}
    (h : (stackOf frames)[index]? = some layer) : layer.opened = none ↔ index = 0 := by
  induction frames with
  | nil =>
      obtain ⟨hindex, rfl⟩ := List.getElem?_eq_some_iff.mp h
      simp only [stackOf, List.length_singleton] at hindex
      simp [stackOf, Layer.globals]
      omega
  | cons frame outer ih =>
      rcases getElem?_stackOf_cons h with hbelow | ⟨rfl, rfl⟩
      · exact ih hbelow
      · simp [Frame.layer]

/-- The depth of a layer says where it lies. -/
theorem Counted.depth_eq_index {frames : List Frame} (h : Counted frames) {index : Nat} {layer : Layer}
    (hlayer : (stackOf frames)[index]? = some layer) : layer.depth = index := by
  induction h with
  | nil =>
      obtain ⟨hindex, rfl⟩ := List.getElem?_eq_some_iff.mp hlayer
      simp only [stackOf, List.length_singleton] at hindex
      simp [stackOf, Layer.globals]
      omega
  | cons hdepth _ ih =>
      rcases getElem?_stackOf_cons hlayer with hbelow | ⟨rfl, rfl⟩
      · exact ih hbelow
      · exact hdepth

namespace Nested

variable {frames : List Frame}

/-- No dictionary on the stack comes after that of the innermost section. -/
theorem le_innermost (h : Nested s frames) :
    ∀ layer ∈ stackOf frames, layer.dict ≤ innermost frames := by
  induction h with
  | nil => simp [stackOf, innermost, Layer.globals]
  | cons hlater _ _ ih =>
      intro layer hlayer
      rcases List.mem_append.mp hlayer with hbelow | htop
      · exact Nat.le_of_lt (Nat.lt_of_le_of_lt (ih layer hbelow) hlater)
      · rw [List.mem_singleton.mp htop]
        exact Nat.le_refl _

theorem pairwise_lt (h : Nested s frames) :
    (stackOf frames).Pairwise fun lower upper => lower.dict < upper.dict := by
  induction h with
  | nil => exact List.pairwise_singleton _ _
  | cons hlater _ houter ih =>
      refine List.pairwise_append.mpr ⟨ih, List.pairwise_singleton _ _, ?_⟩
      intro lower hlower upper hupper
      rw [List.mem_singleton.mp hupper]
      exact Nat.lt_of_le_of_lt (houter.le_innermost lower hlower) hlater

/-- Every section on the stack is bound in the dictionary of the layer below. -/
theorem isChain_binds (h : Nested s frames) :
    (stackOf frames).IsChain fun lower upper =>
      ∀ opened, upper.opened = some opened → s.Binds lower.dict opened upper.dict := by
  induction h with
  | nil => exact .singleton _
  | @cons frame outer _ hbinds _ ih =>
      refine List.isChain_append.mpr ⟨ih, .singleton _, ?_⟩
      intro lower hlower upper hupper opened hopened
      cases hupper
      cases hopened
      have hdict : lower.dict = innermost outer := by
        have hlast := getLast?_stackOf outer
        rw [hlower] at hlast
        exact Option.some.inj hlast
      rw [hdict]
      exact hbinds

end Nested

/-! ## What is looked up is there -/

/-- Whether a move finds what it looks up: the dictionary in which it needs a key, and the section or
the region of fast steps that it closes. -/
def Move.finds (s : State) : Move → Bool
  | set key value => holder s (set key value) < s.dicts.size
  | enter opened => holder s (enter opened) < s.dicts.size
  | leave => s.frames ≠ []
  | leaveFast => s.fastSteps ≠ 0
  | skip | expect _ | enterFast | expectFast => true

/-- Carries out the moves of one line where none may miss what it looks up. -/
def run? (line : Nat) : List Move → State → Option Outcome
  | [], s => some (.reached s)
  | move :: rest, s =>
    if move.finds s then
      match move.apply line s with
      | .reached next => run? line rest next
      | .refused error last => some (.refused error last)
    else none

/-- Nothing is missed in a move, and nothing in the moves after it. -/
theorem run?_cons {move : Move} {rest : List Move} (hfinds : move.finds s = true)
    (hrest : ∀ t, Transition line s move t → run? line rest t = some (run line rest t)) :
    run? line (move :: rest) s = some (run line (move :: rest) s) := by
  simp only [run?, run, hfinds, if_true]
  cases happly : move.apply line s with
  | reached next => exact hrest next (.of_apply happly)
  | refused error last => rfl

/-- Nothing is missed in some moves, and nothing in the one after them. -/
theorem run?_concat {moves : List Move} {last : Move}
    (hmoves : run? line moves s = some (run line moves s))
    (hlast : ∀ t, run line moves s = .reached t → last.finds t = true) :
    run? line (moves ++ [last]) s = some (run line (moves ++ [last]) s) := by
  induction moves generalizing s with
  | nil => exact run?_cons (hlast s rfl) fun _ _ => rfl
  | cons move rest ih =>
      simp only [List.cons_append, run?, run] at hmoves hlast ⊢
      split at hmoves
      · next hfinds =>
          rw [if_pos hfinds]
          cases happly : move.apply line s with
          | reached next =>
              rw [happly] at hmoves
              simp only [happly] at hlast ⊢
              exact ih hmoves hlast
          | refused error last => rfl
      · cases hmoves

namespace Owned

theorem finds_set (h : Owned s) (key : String) (value : Value) :
    Move.finds s (.set key value) = true := by
  exact decide_eq_true h.current_lt

theorem finds_enter (h : Owned s) (opened : Section) : Move.finds s (.enter opened) = true := by
  have hlt : ((s.place opened).parent?).getD s.current < s.dicts.size := by
    cases hparent : (s.place opened).parent? with
    | none => exact h.current_lt
    | some parent => exact h.parent_lt hparent
  exact decide_eq_true hlt

theorem run?_sets (h : Owned s) (line : Nat) (fields : Payload) :
    run? line (Move.sets fields) s = some (run line (Move.sets fields) s) := by
  induction fields generalizing s with
  | nil => rfl
  | cons field rest ih =>
      apply run?_cons (h.finds_set field.1 field.2)
      intro t hset
      exact ih (h.step hset)

/-- No record misses what it looks up. -/
theorem run?_ofRecord (h : Owned s) (line : Nat) (record : Record) :
    run? line (Move.ofRecord record) s = some (run line (Move.ofRecord record) s) := by
  rw [Move.ofRecord_eq]
  cases Marker.ofLabel record.label with
  | remark => exact h.run?_sets line record.payload
  | opens opened =>
      apply run?_cons (h.finds_enter opened)
      intro t henter
      exact (h.step henter).run?_sets line record.payload
  | closes closed =>
      apply run?_concat
      · apply run?_cons rfl
        intro t hexpect
        exact (h.step hexpect).run?_sets line record.payload
      · intro t hrun
        -- The section that is expected is still open after the fields.
        obtain ⟨checked, hexpect, hsets⟩ := run_cons_reached hrun
        cases hexpect with
        | expect hframes hopened =>
            simp [Move.finds, (unchanged_of_run_sets hsets).1, hframes]
  | beginsFastSteps =>
      apply run?_concat (h.run?_sets line record.payload)
      intro t _
      rfl
  | endsFastSteps =>
      apply run?_concat
      · apply run?_cons rfl
        intro t hexpect
        exact (h.step hexpect).run?_sets line record.payload
      · intro t hrun
        obtain ⟨checked, hexpect, hsets⟩ := run_cons_reached hrun
        cases hexpect with
        | expectFast hopen => simpa [Move.finds, (unchanged_of_run_sets hsets).2.2] using hopen

end Owned

/-- Takes a complete dictionary, if it is there. -/
def take? (number : Nat) : StateT Completed Option Dict := fun completed =>
  (completed.getD number none).map fun dict => (dict, completed.setIfInBounds number none)

/-- The document that a state stands for, if every dictionary is there when it is taken. -/
def State.document? (s : State) : Option Document :=
  s.documentBy take?

theorem Yields.take? {find : Nat → Dict} (number : Nat) :
    Yields find (Builder.take? number) [number] (find number) := by
  intro completed hthere
  have hfind : completed[number]? = some (some (find number)) := hthere number (by simp)
  refine ⟨completed.setIfInBounds number none, ?_, by simp, ?_⟩
  · simp [Builder.take?, StateT.run, hfind]
  · intro other hother
    have hne : number ≠ other := by
      rintro rfl
      simp at hother
    simp [hne]

/-- Every dictionary is there when it is taken. -/
theorem Owned.document?_eq (h : Owned s) : s.document? = some s.document := by
  rw [State.document_eq h]
  exact State.documentBy_eq Yields.take? h

/-! ## All records -/

/-- Carries out records, each on a line of that number, up to one that is refused. -/
def runRecords : List (Nat × Record) → State → Outcome
  | [], s => .reached s
  | (line, record) :: rest, s =>
    match run line (Move.ofRecord record) s with
    | .reached next => runRecords rest next
    | .refused error last => .refused error last

/-- The state that is reached, or in which a move was refused. -/
def Outcome.state : Outcome → State
  | reached s => s
  | refused _ s => s

/-- What every transition preserves holds of the state in which moves end, refused or not. -/
theorem state_run_invariant {P : State → Prop}
    (hstep : ∀ {s move t}, P s → Transition line s move t → P t) {moves : List Move}
    (hs : P s) : P (run line moves s).state := by
  induction moves generalizing s with
  | nil => exact hs
  | cons move rest ih =>
      simp only [run]
      cases happly : move.apply line s with
      | reached next => exact ih (hstep hs (.of_apply happly))
      | refused error last =>
          rw [Move.apply_refused happly]
          exact hs

theorem state_runRecords_invariant {P : State → Prop}
    (hstep : ∀ {line s move t}, P s → Transition line s move t → P t)
    (records : List (Nat × Record)) (hs : P s) : P (runRecords records s).state := by
  induction records generalizing s with
  | nil => exact hs
  | cons numbered rest ih =>
      obtain ⟨line, record⟩ := numbered
      have hnext : P (run line (Move.ofRecord record) s).state := state_run_invariant hstep hs
      simp only [runRecords]
      cases hrun : run line (Move.ofRecord record) s with
      | reached next =>
          rw [hrun] at hnext
          exact ih hnext
      | refused error last =>
          rw [hrun] at hnext
          exact hnext

/-- The records of the lines of a log, with the numbers of their lines. -/
def numberedRecords (indicator : String) : Nat → List String → List (Nat × Record)
  | _, [] => []
  | number, line :: following =>
    ((Record.read? indicator line following).map fun record => (number, record)).toList ++
      numberedRecords indicator (number + 1) following

/-- The lines of a log are carried out as its records are. -/
theorem runLines_eq_runRecords (indicator : String) (number : Nat) (lines : List String)
    (s : State) :
    runLines indicator number lines s = runRecords (numberedRecords indicator number lines) s := by
  induction lines generalizing number s with
  | nil => rfl
  | cons line following ih =>
      unfold runLines numberedRecords Move.ofLine
      cases Record.read? indicator line following with
      | none => exact ih (number + 1) s
      | some record =>
          simp only [Option.map_some, Option.toList_some, List.singleton_append, runRecords]
          cases run number (Move.ofRecord record) s with
          | reached next => exact ih (number + 1) next
          | refused error last => rfl

/-! ## The invariant of the store and the stack -/

/-- The store and the stack of open sections fit together. -/
structure Sound (s : State) : Prop where
  /-- The globals are at the bottom of the stack. -/
  bottom : s.stack.head? = some .globals
  /-- They are nowhere else on it. -/
  opened_eq_none_iff : ∀ (index : Nat) (layer : Layer), s.stack[index]? = some layer →
    (layer.opened = none ↔ index = 0)
  /-- The current dictionary is that at the top. -/
  top : s.stack.getLast?.map Layer.dict = some s.current
  depth_eq : ∀ (index : Nat) (layer : Layer), s.stack[index]? = some layer → layer.depth = index
  /-- Whatever a slot, a list or the list of steps refers to is in the store. -/
  references_lt : ∀ number ∈ s.references, number < s.dicts.size
  stack_lt : ∀ layer ∈ s.stack, layer.dict < s.dicts.size
  /-- A dictionary comes after the one that refers to it. -/
  later : ∀ number, ∀ entry ∈ s.entries number, ∀ child ∈ entry.2.numbers, number < child
  /-- The globals are never referred to, and every other dictionary once. -/
  count_references : ∀ number < s.dicts.size,
    s.references.count number = if number = globalsNumber then 0 else 1
  /-- No dictionary is open twice. -/
  increasing : (s.stack.map Layer.dict).Pairwise (· < ·)
  /-- The dictionary of a section is bound in that of the layer below. -/
  bound : s.stack.IsChain fun lower upper =>
    ∀ opened, upper.opened = some opened → s.Binds lower.dict opened upper.dict

theorem Owned.count_references (h : Owned s) {number : Nat} (hnumber : number < s.dicts.size) :
    s.references.count number = if number = globalsNumber then 0 else 1 := by
  have hcount : (globalsNumber ::ₘ s.references).count number = 1 := by
    rw [h.held]
    exact Multiset.count_eq_one_of_mem (Multiset.nodup_range _) (Multiset.mem_range.mpr hnumber)
  rw [Multiset.count_cons] at hcount
  split at hcount <;> split <;> omega

/-- Every dictionary on the stack is in the store. -/
theorem Owned.stack_lt (h : Owned s) : ∀ layer ∈ s.stack, layer.dict < s.dicts.size := by
  have hframes : ∀ frames : List Frame, (∀ frame ∈ frames, frame.dict < s.dicts.size) →
      ∀ layer ∈ stackOf frames, layer.dict < s.dicts.size := by
    intro frames hlt
    induction frames with
    | nil =>
        intro layer hlayer
        rw [List.mem_singleton.mp hlayer]
        exact h.size_pos
    | cons frame outer ih =>
        intro layer hlayer
        rcases List.mem_append.mp hlayer with hbelow | htop
        · exact ih (fun frame hframe => hlt frame (List.mem_cons_of_mem _ hframe)) layer hbelow
        · rw [List.mem_singleton.mp htop]
          exact hlt frame List.mem_cons_self
  exact hframes s.frames h.opened_lt

theorem Sound.of_nested (howned : Owned s) (hnested : Nested s s.frames)
    (hcounted : Counted s.frames) : Sound s where
  bottom := head?_stackOf s.frames
  opened_eq_none_iff := fun _ _ hlayer => Builder.opened_eq_none_iff hlayer
  top := by
    rw [s.current_eq]
    exact getLast?_stackOf s.frames
  depth_eq := fun _ _ hlayer => hcounted.depth_eq_index hlayer
  references_lt := fun _ hnumber => howned.lt_size_of_mem_references hnumber
  stack_lt := howned.stack_lt
  later := howned.later
  count_references := fun _ hnumber => howned.count_references hnumber
  increasing := List.pairwise_map.mpr hnested.pairwise_lt
  bound := hnested.isChain_binds

/-- Whatever records are carried out, and whether or not one of them is refused in the end, the store
and the stack of open sections fit together. No record finds anything missing that it looks up, and
neither does putting together the document. -/
theorem sound_of_runRecords (records : List (Nat × Record)) :
    Sound (runRecords records .initial).state ∧
      (∀ line record, run? line (Move.ofRecord record) (runRecords records .initial).state =
        some (run line (Move.ofRecord record) (runRecords records .initial).state)) ∧
      (runRecords records .initial).state.document? =
        some (runRecords records .initial).state.document := by
  have hinvariant := state_runRecords_invariant (P := fun s => Owned s ∧ Nested s s.frames ∧ Counted s.frames)
    (fun hs hstep => ⟨hs.1.step hstep, hs.2.1.step hs.1 hstep, hs.2.2.step hstep⟩) records
    ⟨Owned.initial, .nil, .nil⟩
  obtain ⟨howned, hnested, hcounted⟩ := hinvariant
  exact ⟨.of_nested howned hnested hcounted, fun line record => howned.run?_ofRecord line record,
    howned.document?_eq⟩

end SolverLog.Builder
