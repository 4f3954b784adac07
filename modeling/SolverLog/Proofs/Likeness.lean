import Mathlib.Data.List.Forall2
import Mathlib.Data.Option.Defs
import SolverLog.Proofs.Replay

/-!
# Logs that differ in their values only

Two states are alike if one has the same keys, dictionaries, lists and open sections as the other,
and their values are related. Whatever the relation is, nothing that reading does looks at a value:
alike states and alike moves lead to alike states, or to the same error.

* `State.Alike.apply`, `runMoves_alike` — one move, and the moves of a whole log.
* `Move.ofLines_alike` — lines with different lines after them differ in the arrays that reach the end.
-/

namespace SolverLog

namespace Entries

variable {α β : Type} {R : α → β → Prop}

/-- Entries with the same keys in the same order, and with related values. -/
inductive Alike (R : α → β → Prop) : Entries α → Entries β → Prop where
  | nil : Alike R [] []
  | cons {key : String} {a : α} {b : β} {d : Entries α} {e : Entries β} (hvalue : R a b)
      (hrest : Alike R d e) : Alike R ((key, a) :: d) ((key, b) :: e)

namespace Alike

theorem refl {R : α → α → Prop} (hrefl : ∀ a, R a a) (d : Entries α) : Alike R d d := by
  induction d with
  | nil => exact .nil
  | cons entry rest ih => exact .cons (hrefl entry.2) ih

theorem value? {d : Entries α} {e : Entries β} (h : Alike R d e) (key : String) :
    Option.Rel R (d.value? key) (e.value? key) := by
  induction h with
  | nil => exact .none
  | @cons other a b d e hvalue hrest ih =>
      by_cases hkey : other = key
      · simpa [Entries.value?, hkey] using hvalue
      · simpa [Entries.value?, hkey] using ih

theorem put {d : Entries α} {e : Entries β} (h : Alike R d e) (key : String) {a : α} {b : β}
    (hvalue : R a b) : Alike R (d.put key a) (e.put key b) := by
  induction h with
  | nil => exact .cons hvalue .nil
  | @cons other a' b' d e hvalue' hrest ih =>
      by_cases hkey : other = key
      · simpa [Entries.put, hkey] using cons hvalue hrest
      · simpa [Entries.put, hkey] using cons hvalue' ih

/-- Entries that are set one after the other. -/
theorem putAll {d : Entries α} {e : Entries β} (h : Alike R d e) {more : List (String × α)}
    {more' : List (String × β)} (hmore : Alike R more more') :
    Alike R (d.putAll more) (e.putAll more') := by
  induction hmore generalizing d e with
  | nil => exact h
  | @cons key a b _ _ hvalue _ ih => exact ih (h.put key hvalue)

end Alike

end Entries

namespace Builder

variable {R : Value → Value → Prop}

/-- Setting a key of a dictionary that is not there changes nothing. -/
theorem State.entries_set_of_size_le {s : State} {number : Nat} (h : s.dicts.size ≤ number)
    (key : String) (slot : Slot) (other : Nat) :
    (s.set number key slot).entries other = s.entries other := by
  by_cases hother : number = other
  · subst hother
    have hsize : (s.set number key slot).dicts.size ≤ number := by rwa [size_set]
    rw [entries_of_size_le h, entries_of_size_le hsize]
  · simp [entries, set, Array.getElem?_modify, hother]

/-! ## What is alike -/

/-- Slots that hold related values, or the same dictionaries. -/
inductive Slot.Alike (R : Value → Value → Prop) : Slot → Slot → Prop where
  | value {v w : Value} (h : R v w) : Alike R (.value v) (.value w)
  | dict (number : Nat) : Alike R (.dict number) (.dict number)
  | list (numbers : List Nat) : Alike R (.list numbers) (.list numbers)

/-- States that differ in their values only, and these are related. -/
structure State.Alike (R : Value → Value → Prop) (s t : State) : Prop where
  size_eq : s.dicts.size = t.dicts.size
  entries : ∀ number, Entries.Alike (Slot.Alike R) (s.entries number) (t.entries number)
  steps_eq : s.steps = t.steps
  frames_eq : s.frames = t.frames
  fastSteps_eq : s.fastSteps = t.fastSteps

/-- Moves that are the same, or set a key to related values. -/
inductive Move.Alike (R : Value → Value → Prop) : Move → Move → Prop where
  | set (key : String) {v w : Value} (h : R v w) : Alike R (.set key v) (.set key w)
  | same (move : Move) : Alike R move move

/-- Alike states that are reached, or the same error. -/
inductive Outcome.Alike (R : Value → Value → Prop) : Outcome → Outcome → Prop where
  | reached {s t : State} (h : s.Alike R t) : Alike R (.reached s) (.reached t)
  | refused (error : StructureError) (s t : State) : Alike R (.refused error s) (.refused error t)

theorem Slot.Alike.refl (hrefl : ∀ v, R v v) (slot : Slot) : slot.Alike R slot := by
  cases slot with
  | value held => exact .value (hrefl held)
  | dict number => exact .dict number
  | list numbers => exact .list numbers

namespace State.Alike

variable {s t : State}

theorem refl (hrefl : ∀ v, R v v) (s : State) : s.Alike R s where
  size_eq := rfl
  entries := fun number => .refl (Slot.Alike.refl hrefl) (s.entries number)
  steps_eq := rfl
  frames_eq := rfl
  fastSteps_eq := rfl

/-! ## What does not depend on values -/

theorem current_eq (h : s.Alike R t) : s.current = t.current := by
  unfold State.current
  rw [h.frames_eq]

theorem depth_eq (h : s.Alike R t) : s.depth = t.depth := by
  unfold State.depth
  rw [h.frames_eq]

theorem host_eq (h : s.Alike R t) : s.host = t.host := by
  unfold State.host
  rw [h.frames_eq, h.current_eq]

theorem path_eq (h : s.Alike R t) : s.path = t.path := by
  unfold State.path
  rw [h.frames_eq]

theorem place_eq (h : s.Alike R t) (opened : Section) : s.place opened = t.place opened := by
  unfold State.place
  rw [h.current_eq, h.host_eq, h.frames_eq, h.fastSteps_eq]

theorem newEntries_eq (h : s.Alike R t) (opened : Section) :
    s.newEntries opened = t.newEntries opened := by
  unfold State.newEntries
  rw [h.fastSteps_eq]

theorem value? (h : s.Alike R t) (number : Nat) (key : String) :
    Option.Rel (Slot.Alike R) ((s.entries number).value? key) ((t.entries number).value? key) :=
  (h.entries number).value? key

theorem vacancy_eq (h : s.Alike R t) (place : Place) : s.vacancy place = t.vacancy place := by
  cases place with
  | topLevel => rfl
  | member parent key | element parent key =>
      have hslot := h.value? parent key
      simp only [State.vacancy]
      generalize (s.entries parent).value? key = a at hslot ⊢
      generalize (t.entries parent).value? key = b at hslot ⊢
      cases hslot with
      | none => rfl
      | some hslot => cases hslot <;> rfl

theorem elements_eq (h : s.Alike R t) (number : Nat) (key : String) :
    s.elements number key = t.elements number key := by
  have hslot := h.value? number key
  unfold State.elements
  generalize (s.entries number).value? key = a at hslot ⊢
  generalize (t.entries number).value? key = b at hslot ⊢
  cases hslot with
  | none => rfl
  | some hslot => cases hslot <;> rfl

/-! ## Operations -/

theorem set (h : s.Alike R t) (number : Nat) (key : String) {a b : Slot} (hslot : a.Alike R b) :
    (s.set number key a).Alike R (t.set number key b) where
  size_eq := by rw [size_set, size_set, h.size_eq]
  entries := by
    intro other
    by_cases hnumber : number < s.dicts.size
    · rw [entries_set s hnumber, entries_set t (h.size_eq ▸ hnumber)]
      split
      · exact (h.entries number).put key hslot
      · exact h.entries other
    · have hsize : s.dicts.size ≤ number := Nat.le_of_not_lt hnumber
      rw [entries_set_of_size_le hsize, entries_set_of_size_le (h.size_eq ▸ hsize)]
      exact h.entries other
  steps_eq := h.steps_eq
  frames_eq := h.frames_eq
  fastSteps_eq := h.fastSteps_eq

theorem add (h : s.Alike R t) (hrefl : ∀ v, R v v) (fresh : Entries Slot) :
    (s.add fresh).Alike R (t.add fresh) where
  size_eq := by rw [size_add, size_add, h.size_eq]
  entries := by
    intro other
    rw [entries_add, entries_add, h.size_eq]
    split
    · exact .refl (Slot.Alike.refl hrefl) fresh
    · exact h.entries other
  steps_eq := h.steps_eq
  frames_eq := h.frames_eq
  fastSteps_eq := h.fastSteps_eq

theorem addAt (h : s.Alike R t) (hrefl : ∀ v, R v v) (fresh : Entries Slot) (place : Place) :
    (s.addAt fresh place).Alike R (t.addAt fresh place) := by
  have hadd := h.add hrefl fresh
  unfold State.addAt
  rw [h.size_eq]
  cases place with
  | topLevel =>
      refine ⟨hadd.size_eq, hadd.entries, ?_, h.frames_eq, h.fastSteps_eq⟩
      show s.steps.push _ = t.steps.push _
      rw [h.steps_eq]
  | member parent key => exact hadd.set parent key (.dict _)
  | element parent key =>
      simp only [h.elements_eq]
      exact hadd.set parent key (.list _)

theorem enter (h : s.Alike R t) (line : Nat) (opened : Section) (number : Nat) :
    (s.enter line opened number).Alike R (t.enter line opened number) where
  size_eq := h.size_eq
  entries := h.entries
  steps_eq := h.steps_eq
  frames_eq := by
    unfold State.enter
    rw [h.frames_eq, h.depth_eq]
  fastSteps_eq := h.fastSteps_eq

/-! ## Moves -/

theorem apply_set (h : s.Alike R t) (line : Nat) (key : String) {v w : Value} (hvalue : R v w) :
    ((Move.set key v).apply line s).Alike R ((Move.set key w).apply line t) := by
  have hslot := h.value? t.current key
  simp only [Move.apply, h.current_eq, h.path_eq]
  generalize (s.entries t.current).value? key = a at hslot ⊢
  generalize (t.entries t.current).value? key = b at hslot ⊢
  cases hslot with
  | none => exact .reached (h.set t.current key (.value hvalue))
  | some hslot => exact .refused _ s t

theorem apply_enter (h : s.Alike R t) (hrefl : ∀ v, R v v) (line : Nat) (opened : Section) :
    ((Move.enter opened).apply line s).Alike R ((Move.enter opened).apply line t) := by
  simp only [Move.apply, h.place_eq, h.vacancy_eq, h.newEntries_eq, h.path_eq, h.size_eq]
  split
  · exact .reached ((h.addAt hrefl _ _).enter line opened _)
  · exact .reached (h.enter line opened _)
  · exact .refused _ s t

/-- Alike moves on alike states lead to alike states, or are refused with the same error. -/
theorem apply (h : s.Alike R t) (hrefl : ∀ v, R v v) (line : Nat) {move move' : Move}
    (hmove : move.Alike R move') : (move.apply line s).Alike R (move'.apply line t) := by
  cases hmove with
  | set key hvalue => exact h.apply_set line key hvalue
  | same =>
      cases move with
      | skip => exact .reached h
      | set key value => exact h.apply_set line key (hrefl value)
      | enter opened => exact h.apply_enter hrefl line opened
      | expect closed =>
          simp only [Move.apply, h.frames_eq]
          split
          · exact .refused _ s t
          · split
            · exact .reached h
            · exact .refused _ s t
      | leave =>
          refine .reached ⟨h.size_eq, h.entries, h.steps_eq, ?_, h.fastSteps_eq⟩
          exact congrArg List.tail h.frames_eq
      | enterFast =>
          refine .reached ⟨h.size_eq, h.entries, h.steps_eq, h.frames_eq, ?_⟩
          exact congrArg (· + 1) h.fastSteps_eq
      | expectFast =>
          simp only [Move.apply, h.fastSteps_eq]
          split
          · exact .refused _ s t
          · exact .reached h
      | leaveFast =>
          refine .reached ⟨h.size_eq, h.entries, h.steps_eq, h.frames_eq, ?_⟩
          exact congrArg (· - 1) h.fastSteps_eq

end State.Alike

/-! ## Runs -/

/-- The moves of a line. -/
theorem run_alike (hrefl : ∀ v, R v v) (line : Nat) {moves moves' : List Move}
    (hmoves : List.Forall₂ (Move.Alike R) moves moves') {s t : State} (h : s.Alike R t) :
    (run line moves s).Alike R (run line moves' t) := by
  induction hmoves generalizing s t with
  | nil => exact .reached h
  | @cons move move' rest rest' hmove _ ih =>
      have happly := h.apply hrefl line hmove
      simp only [run]
      generalize move.apply line s = outcome at happly ⊢
      generalize move'.apply line t = outcome' at happly ⊢
      cases happly with
      | reached h' => exact ih h'
      | refused error last last' => exact .refused error last last'

/-- The moves of the lines of a log. -/
theorem runMoves_alike (hrefl : ∀ v, R v v) (number : Nat) {batches batches' : List (List Move)}
    (hbatches : List.Forall₂ (List.Forall₂ (Move.Alike R)) batches batches') {s t : State}
    (h : s.Alike R t) : (runMoves number batches s).Alike R (runMoves number batches' t) := by
  induction hbatches generalizing number s t with
  | nil => exact .reached h
  | @cons moves moves' rest rest' hmoves _ ih =>
      have hrun := run_alike hrefl number hmoves h
      simp only [runMoves]
      generalize run number moves s = outcome at hrun ⊢
      generalize run number moves' t = outcome' at hrun ⊢
      cases hrun with
      | reached h' => exact ih (number + 1) h'
      | refused error last last' => exact .refused error last last'

/-! ## The moves of lines with different lines after them -/

theorem Move.sets_alike {fields fields' : Payload} (h : Entries.Alike R fields fields') :
    List.Forall₂ (Move.Alike R) (Move.sets fields) (Move.sets fields') := by
  induction h with
  | nil => exact .nil
  | @cons key _ _ _ _ hvalue _ ih => exact .cons (.set key hvalue) ih

/-- Records with one label and alike payloads have alike moves. -/
theorem Move.ofRecord_alike {record record' : Record} (hlabel : record.label = record'.label)
    (hpayload : Entries.Alike R record.payload record'.payload) :
    List.Forall₂ (Move.Alike R) (Move.ofRecord record) (Move.ofRecord record') := by
  have hsets := Move.sets_alike hpayload
  have hlast : ∀ move, List.Forall₂ (Move.Alike R) [move] [move] := fun move => .cons (.same move) .nil
  rw [Move.ofRecord_eq, Move.ofRecord_eq, hlabel]
  cases Marker.ofLabel record'.label with
  | remark => exact hsets
  | opens opened => exact .cons (.same _) hsets
  | closes closed => exact .cons (.same _) (List.rel_append hsets (hlast _))
  | beginsFastSteps => exact List.rel_append hsets (hlast _)
  | endsFastSteps => exact .cons (.same _) (List.rel_append hsets (hlast _))

theorem Payload.decode_alike (hrefl : ∀ v, R v v) (indicator payload : String)
    {following following' : List String}
    (harray : R (Payload.arrayOf following) (Payload.arrayOf following')) :
    Entries.Alike R (Payload.decode indicator following payload)
      (Payload.decode indicator following' payload) := by
  apply Entries.Alike.putAll .nil
  induction Payload.fields payload with
  | nil => exact .nil
  | cons field rest ih =>
      refine .cons ?_ ih
      unfold Payload.valueOf
      split
      · exact harray
      · exact hrefl _

theorem Move.ofLine_alike (hrefl : ∀ v, R v v) (indicator line : String)
    {following following' : List String}
    (harray : R (Payload.arrayOf following) (Payload.arrayOf following')) :
    List.Forall₂ (Move.Alike R) (Move.ofLine indicator line following)
      (Move.ofLine indicator line following') := by
  unfold Move.ofLine Record.read?
  cases Header.read? line with
  | none => exact .cons (.same .skip) .nil
  | some header =>
      exact Move.ofRecord_alike rfl (Payload.decode_alike hrefl indicator header.payload harray)

/-- The moves of lines do not depend on the lines after them but for arrays. -/
theorem Move.ofLines_alike (hrefl : ∀ v, R v v) (indicator : String) {more more' : List String}
    (harray : ∀ rest, R (Payload.arrayOf (rest ++ more)) (Payload.arrayOf (rest ++ more')))
    (lines : List String) :
    List.Forall₂ (List.Forall₂ (Move.Alike R)) (Move.ofLines indicator more lines)
      (Move.ofLines indicator more' lines) := by
  induction lines with
  | nil => exact .nil
  | cons line following ih =>
      exact .cons (Move.ofLine_alike hrefl indicator line (harray following)) ih

end Builder

end SolverLog
