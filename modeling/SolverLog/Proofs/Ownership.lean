import Mathlib.Data.List.Pairwise
import Mathlib.Data.Multiset.OrderedMonoid
import Mathlib.Data.Multiset.Range
import SolverLog.Proofs.Store
import SolverLog.Proofs.Transition

/-!
# Ownership

Every dictionary but that of the globals has one holder: a slot of an earlier dictionary, or the
list of the top-level steps.

* `Owned` — the invariant, with what it needs about keys and open sections.
* `Owned.step` — every transition preserves it.
* `owned_of_runLines` — it holds of every state that a log reaches.
-/

namespace SolverLog.Builder

/-- The dictionary that holds a place, if it is not at the top level. -/
def Place.parent? : Place → Option Nat
  | topLevel => none
  | member parent _ => some parent
  | element parent _ => some parent

/-- The numbers that entries refer to, in order. -/
def numbersOf (entries : Entries Slot) : List Nat :=
  entries.flatMap (·.2.numbers)

/-- The numbers that the slots and the list of steps refer to, as often as they do. -/
def State.references (s : State) : Multiset Nat :=
  s.tally (fun entry => (entry.2.numbers : Multiset Nat)) + (s.steps.toList : Multiset Nat)

theorem sum_map_coe {α β : Type} (items : List α) (f : α → List β) :
    (items.map fun item => (f item : Multiset β)).sum = (items.flatMap f : List β) := by
  induction items with
  | nil => rfl
  | cons item rest ih => simp [ih]

theorem State.references_eq (s : State) :
    s.references =
      ((List.range s.dicts.size).flatMap (fun number => numbersOf (s.entries number)) ++
        s.steps.toList : List Nat) := by
  rw [references, tally_eq_sum_range, ← Multiset.coe_add, ← sum_map_coe]
  congr 3
  funext number
  exact sum_map_coe _ _

theorem State.mem_references {s : State} {child : Nat} :
    child ∈ s.references ↔
      (∃ number, ∃ entry ∈ s.entries number, child ∈ entry.2.numbers) ∨ child ∈ s.steps.toList := by
  simp only [references_eq, Multiset.mem_coe, List.mem_append, List.mem_flatMap, List.mem_range,
    numbersOf]
  constructor
  · rintro (⟨number, _, hentry⟩ | hstep)
    · exact Or.inl ⟨number, hentry⟩
    · exact Or.inr hstep
  · rintro (⟨number, entry, hentry, hchild⟩ | hstep)
    · have hnumber : number < s.dicts.size := by
        by_contra hge
        simp [entries_of_size_le (Nat.le_of_not_lt hge)] at hentry
      exact Or.inl ⟨number, hnumber, entry, hentry, hchild⟩
    · exact Or.inr hstep

/-- Every dictionary but that of the globals has exactly one holder, and that is an earlier one. -/
structure Owned (s : State) : Prop where
  /-- The globals aside, every number is referred to once. -/
  held : globalsNumber ::ₘ s.references = Multiset.range s.dicts.size
  later : ∀ number, ∀ entry ∈ s.entries number, ∀ child ∈ entry.2.numbers, number < child
  nodup_keys : ∀ number, (s.entries number).keys.Nodup
  opened_lt : ∀ frame ∈ s.frames, frame.dict < s.dicts.size

namespace Owned

variable {s : State}

theorem initial : Owned .initial where
  held := by
    rw [State.references, State.tally_initial]
    rfl
  later := by simp [State.entries_initial]
  nodup_keys := by simp [State.entries_initial, Entries.keys]
  opened_lt := by simp [State.initial]

/-! ## Numbers in use are numbers of dictionaries -/

theorem size_pos (h : Owned s) : 0 < s.dicts.size := by
  have hmem : globalsNumber ∈ Multiset.range s.dicts.size := by
    rw [← h.held]
    exact Multiset.mem_cons_self _ _
  exact Multiset.mem_range.mp hmem

theorem lt_size_of_mem_references (h : Owned s) {number : Nat} (hmem : number ∈ s.references) :
    number < s.dicts.size := by
  rw [← Multiset.mem_range, ← h.held]
  exact Multiset.mem_cons_of_mem hmem

theorem current_lt (h : Owned s) : s.current < s.dicts.size := by
  unfold State.current
  split
  · exact h.size_pos
  · next frame outer hframes => exact h.opened_lt frame (by simp [hframes])

theorem host_lt (h : Owned s) : s.host < s.dicts.size := by
  unfold State.host
  split
  · next frame hfind => exact h.opened_lt frame (List.mem_of_find?_eq_some hfind)
  · exact h.current_lt

theorem child_lt (h : Owned s) {number child : Nat} {entry : String × Slot}
    (hentry : entry ∈ s.entries number) (hchild : child ∈ entry.2.numbers) :
    child < s.dicts.size :=
  h.lt_size_of_mem_references (State.mem_references.mpr (Or.inl ⟨number, entry, hentry, hchild⟩))

theorem step_lt (h : Owned s) {number : Nat} (hmem : number ∈ s.steps.toList) :
    number < s.dicts.size :=
  h.lt_size_of_mem_references (State.mem_references.mpr (Or.inr hmem))

/-- Every dictionary is that of the globals, held by another one, or a top-level step. -/
theorem holder (h : Owned s) {child : Nat} (hchild : child < s.dicts.size) :
    child = globalsNumber ∨
      (∃ number, ∃ entry ∈ s.entries number, child ∈ entry.2.numbers) ∨
        child ∈ s.steps.toList := by
  have hmem : child ∈ globalsNumber ::ₘ s.references := by
    rw [h.held]
    exact Multiset.mem_range.mpr hchild
  exact (Multiset.mem_cons.mp hmem).imp_right State.mem_references.mp

/-! ## One holder -/

theorem nodup_references (h : Owned s) :
    ((List.range s.dicts.size).flatMap (fun number => numbersOf (s.entries number)) ++
      s.steps.toList).Nodup := by
  have hnodup : (globalsNumber ::ₘ s.references).Nodup := by
    rw [h.held]
    exact Multiset.nodup_range _
  rw [State.references_eq] at hnodup
  exact Multiset.coe_nodup.mp (Multiset.nodup_cons.mp hnodup).2

theorem lt_size_of_mem_numbersOf {number child : Nat}
    (hchild : child ∈ numbersOf (s.entries number)) : number < s.dicts.size := by
  by_contra hge
  simp [State.entries_of_size_le (Nat.le_of_not_lt hge), numbersOf] at hchild

/-- No dictionary holds another one twice. -/
theorem nodup_numbersOf (h : Owned s) (number : Nat) : (numbersOf (s.entries number)).Nodup := by
  by_cases hnumber : number < s.dicts.size
  · have hdicts := (List.nodup_append.mp h.nodup_references).1
    exact (List.nodup_flatMap.mp hdicts).1 number (List.mem_range.mpr hnumber)
  · simp [State.entries_of_size_le (Nat.le_of_not_lt hnumber), numbersOf]

/-- No two dictionaries hold the same one. -/
theorem holder_unique (h : Owned s) {m n child : Nat} (hm : child ∈ numbersOf (s.entries m))
    (hn : child ∈ numbersOf (s.entries n)) : m = n := by
  by_contra hne
  have hdicts := (List.nodup_append.mp h.nodup_references).1
  -- Any two dictionaries hold disjoint ones, in whichever order they are listed.
  have : Std.Symm (Function.onFun List.Disjoint fun number => numbersOf (s.entries number)) :=
    ⟨fun _ _ hab => List.Disjoint.symm hab⟩
  have hdisjoint := (List.nodup_flatMap.mp hdicts).2.forall
    (List.mem_range.mpr (lt_size_of_mem_numbersOf hm))
    (List.mem_range.mpr (lt_size_of_mem_numbersOf hn)) hne
  exact hdisjoint hm hn

theorem nodup_steps (h : Owned s) : s.steps.toList.Nodup :=
  (List.nodup_append.mp h.nodup_references).2.1

/-- A top-level step is held by no dictionary. -/
theorem not_mem_numbersOf_of_mem_steps (h : Owned s) {child : Nat} (hstep : child ∈ s.steps.toList)
    (number : Nat) : child ∉ numbersOf (s.entries number) := by
  intro hchild
  refine (List.nodup_append.mp h.nodup_references).2.2 child ?_ child hstep rfl
  exact List.mem_flatMap.mpr
    ⟨number, List.mem_range.mpr (lt_size_of_mem_numbersOf hchild), hchild⟩

/-- The globals are held by no dictionary. -/
theorem globals_not_mem_numbersOf (h : Owned s) (number : Nat) :
    globalsNumber ∉ numbersOf (s.entries number) := by
  intro hmem
  rcases List.mem_flatMap.mp hmem with ⟨entry, hentry, hchild⟩
  exact Nat.not_lt_zero _ (h.later number entry hentry globalsNumber hchild)

/-- The globals are no top-level step. -/
theorem globals_not_mem_steps (h : Owned s) : globalsNumber ∉ s.steps.toList := by
  intro hmem
  have hnodup : (globalsNumber ::ₘ s.references).Nodup := by
    rw [h.held]
    exact Multiset.nodup_range _
  exact (Multiset.nodup_cons.mp hnodup).1 (State.mem_references.mpr (Or.inr hmem))

/-! ## The operations preserve ownership -/

/-- Setting a new key to a value. -/
theorem set_value (h : Owned s) {number : Nat} (hnumber : number < s.dicts.size) {key : String}
    {value : Value} (hnew : (s.entries number).value? key = none) :
    Owned (s.set number key (.value value)) where
  held := by
    have htally := s.tally_set (fun entry => (entry.2.numbers : Multiset Nat)) hnumber key
      (.value value)
    simp only [hnew, Option.elim_none, add_zero, Slot.numbers_value, Multiset.coe_nil] at htally
    have href : (s.set number key (.value value)).references = s.references := by
      rw [State.references, htally]
      rfl
    rw [href, h.held, State.size_set]
  later := by
    intro other entry hentry child hchild
    rw [State.entries_set s hnumber] at hentry
    split at hentry
    · next heq =>
        rcases Entries.mem_put hentry with rfl | hold
        · simp at hchild
        · exact h.later other entry (heq ▸ hold) child hchild
    · exact h.later other entry hentry child hchild
  nodup_keys := by
    intro other
    rw [State.entries_set s hnumber]
    split
    · exact Entries.nodup_keys_put (h.nodup_keys number) _ _
    · exact h.nodup_keys other
  opened_lt := by
    intro frame hframe
    rw [State.size_set]
    exact h.opened_lt frame hframe

theorem sum_numbers_eq_zero {fresh : Entries Slot}
    (hfresh : ∀ entry ∈ fresh, entry.2.numbers = []) :
    (fresh.map fun entry => (entry.2.numbers : Multiset Nat)).sum = 0 := by
  apply List.sum_eq_zero
  intro numbers hnumbers
  rcases List.mem_map.mp hnumbers with ⟨entry, hentry, rfl⟩
  simp [hfresh entry hentry]

/-- Adding a dictionary and referring to it, and to what was referred to before, at a key. -/
theorem add_set (h : Owned s) {fresh : Entries Slot}
    (hfresh : ∀ entry ∈ fresh, entry.2.numbers = []) (hkeys : fresh.keys.Nodup) {parent : Nat}
    (hparent : parent < s.dicts.size) {key : String} {slot : Slot} {old : List Nat}
    (hold : ((s.entries parent).value? key).elim 0 (fun slot => (slot.numbers : Multiset Nat)) = old)
    (hslot : slot.numbers = old ++ [s.dicts.size]) :
    Owned ((s.add fresh).set parent key slot) := by
  have hparent' : parent < (s.add fresh).dicts.size := by
    rw [State.size_add]
    omega
  have hentries : (s.add fresh).entries parent = s.entries parent := by
    rw [State.entries_add, if_neg (by omega)]
  -- What the key referred to before is an entry of the parent, and comes after it.
  have hold_lt : ∀ child ∈ old, parent < child := by
    intro child hchild
    rw [← Multiset.mem_coe, ← hold] at hchild
    cases hslot : (s.entries parent).value? key with
    | none => simp [hslot] at hchild
    | some slot =>
        simp only [hslot, Option.elim_some, Multiset.mem_coe] at hchild
        exact h.later parent _ (Entries.mem_of_value? hslot) child hchild
  refine ⟨?_, ?_, ?_, ?_⟩
  · -- The old numbers of the key count on both sides, so only the new one is added.
    have htally := (s.add fresh).tally_set (fun entry => (entry.2.numbers : Multiset Nat)) hparent'
      key slot
    rw [hentries, hold, State.tally_add, sum_numbers_eq_zero hfresh, add_zero, hslot, ← Multiset.coe_add,
      add_comm (old : Multiset Nat), ← add_assoc] at htally
    have href : ((s.add fresh).set parent key slot).references =
        s.dicts.size ::ₘ s.references := by
      rw [State.references, add_right_cancel htally, add_right_comm, add_comm, Multiset.coe_singleton,
        Multiset.singleton_add]
      rfl
    rw [href, Multiset.cons_swap, h.held, State.size_set, State.size_add, Multiset.range_succ]
  · intro number entry hentry child hchild
    rw [State.entries_set _ hparent', hentries, State.entries_add] at hentry
    split at hentry
    · next heq =>
        subst heq
        rcases Entries.mem_put hentry with rfl | hmem
        · rw [hslot, List.mem_append, List.mem_singleton] at hchild
          rcases hchild with hchild | rfl
          · exact hold_lt child hchild
          · exact hparent
        · exact h.later number entry hmem child hchild
    · split at hentry
      · rw [hfresh entry hentry] at hchild
        simp at hchild
      · exact h.later number entry hentry child hchild
  · intro number
    rw [State.entries_set _ hparent', hentries, State.entries_add]
    split
    · exact Entries.nodup_keys_put (h.nodup_keys parent) _ _
    · split
      · exact hkeys
      · exact h.nodup_keys number
  · intro frame hframe
    rw [State.size_set, State.size_add]
    exact Nat.lt_succ_of_lt (h.opened_lt frame hframe)

/-- Adding a top-level step. -/
theorem add_step (h : Owned s) {fresh : Entries Slot}
    (hfresh : ∀ entry ∈ fresh, entry.2.numbers = []) (hkeys : fresh.keys.Nodup) :
    Owned { s.add fresh with steps := s.steps.push s.dicts.size } where
  held := by
    have htally := s.tally_add (fun entry => (entry.2.numbers : Multiset Nat)) fresh
    rw [sum_numbers_eq_zero hfresh, add_zero] at htally
    have href : State.references { s.add fresh with steps := s.steps.push s.dicts.size } =
        s.dicts.size ::ₘ s.references := by
      simp only [State.references, Array.toList_push, ← Multiset.coe_add]
      rw [← add_assoc, add_comm, Multiset.coe_singleton, Multiset.singleton_add]
      exact congrArg (fun m => s.dicts.size ::ₘ (m + (s.steps.toList : Multiset Nat))) htally
    rw [href, Multiset.cons_swap, h.held]
    simp [State.add, Multiset.range_succ]
  later := by
    intro number entry hentry child hchild
    change entry ∈ (s.add fresh).entries number at hentry
    rw [State.entries_add] at hentry
    split at hentry
    · rw [hfresh entry hentry] at hchild
      simp at hchild
    · exact h.later number entry hentry child hchild
  nodup_keys := by
    intro number
    change ((s.add fresh).entries number).keys.Nodup
    rw [State.entries_add]
    split
    · exact hkeys
    · exact h.nodup_keys number
  opened_lt := by
    intro frame hframe
    simp only [State.size_add]
    exact Nat.lt_succ_of_lt (h.opened_lt frame hframe)

/-- What the new dictionary of a section holds refers to no dictionary. -/
theorem numbers_newEntries {opened : Section} :
    ∀ entry ∈ s.newEntries opened, entry.2.numbers = [] := by
  cases opened <;> simp [State.newEntries]

theorem nodup_keys_newEntries {opened : Section} : (s.newEntries opened).keys.Nodup := by
  cases opened <;> simp [State.newEntries, Entries.keys]

/-- The dictionary that holds the place of a section is in the store. -/
theorem parent_lt (h : Owned s) {opened : Section} {parent : Nat}
    (hparent : (s.place opened).parent? = some parent) : parent < s.dicts.size := by
  -- A section stands in the current dictionary or in that of the innermost open step.
  have hcases : parent = s.current ∨ parent = s.host := by
    cases opened with
    | plain name => exact Or.inl (Option.some.inj hparent).symm
    | entry list => exact Or.inl (Option.some.inj hparent).symm
    | step =>
        simp only [State.place] at hparent
        split at hparent
        · cases hparent
        · split at hparent
          · exact Or.inl (Option.some.inj hparent).symm
          · exact Or.inr (Option.some.inj hparent).symm
  rcases hcases with rfl | rfl
  · exact h.current_lt
  · exact h.host_lt

/-- Adding the dictionary of a section at its place. -/
theorem addAt (h : Owned s) {opened : Section}
    (hfree : s.vacancy (s.place opened) = .free) :
    Owned (s.addAt (s.newEntries opened) (s.place opened)) := by
  cases hplace : s.place opened with
  | topLevel => exact h.add_step numbers_newEntries nodup_keys_newEntries
  | member parent key =>
      have hnone := State.value?_of_free_member (hplace ▸ hfree)
      have hold : ((s.entries parent).value? key).elim 0
          (fun slot => (slot.numbers : Multiset Nat)) = ([] : List Nat) := by
        rw [hnone]
        rfl
      exact h.add_set numbers_newEntries nodup_keys_newEntries (h.parent_lt (by rw [hplace]; rfl))
        hold rfl
  | element parent key =>
      have hold : ((s.entries parent).value? key).elim 0
          (fun slot => (slot.numbers : Multiset Nat)) = s.elements parent key := by
        rcases State.value?_of_free_element (hplace ▸ hfree) with hnone | ⟨numbers, hlist⟩
        · simp [hnone, State.elements]
        · simp [hlist, State.elements]
      exact h.add_set numbers_newEntries nodup_keys_newEntries (h.parent_lt (by rw [hplace]; rfl))
        hold rfl

/-- The dictionary of a section that is opened again is in the store. -/
theorem held_lt (h : Owned s) {opened : Section} {number : Nat}
    (hheld : s.vacancy (s.place opened) = .held number) : number < s.dicts.size := by
  rcases State.value?_of_held hheld with ⟨parent, key, -, hslot⟩
  exact h.child_lt (Entries.mem_of_value? hslot) (by simp)

/-- Opening a section whose dictionary is in the store. -/
theorem enter (h : Owned s) {number : Nat} (hnumber : number < s.dicts.size) (line : Nat)
    (opened : Section) : Owned (s.enter line opened number) where
  held := h.held
  later := h.later
  nodup_keys := h.nodup_keys
  opened_lt := by
    intro frame hframe
    rcases List.mem_cons.mp hframe with rfl | houter
    · exact hnumber
    · exact h.opened_lt frame houter

/-- Closing the innermost open section. -/
theorem leave (h : Owned s) : Owned { s with frames := s.frames.tail } where
  held := h.held
  later := h.later
  nodup_keys := h.nodup_keys
  opened_lt := by
    intro frame hframe
    exact h.opened_lt frame (List.mem_of_mem_tail hframe)

/-- The number of open regions is no matter of ownership. -/
theorem fastSteps (h : Owned s) (number : Nat) : Owned { s with fastSteps := number } :=
  ⟨h.held, h.later, h.nodup_keys, h.opened_lt⟩

/-- Every transition preserves ownership. -/
theorem step (h : Owned s) {line : Nat} {move : Move} {s' : State}
    (hstep : Transition line s move s') : Owned s' := by
  cases hstep with
  | skip => exact h
  | set hnew => exact h.set_value h.current_lt hnew
  | @enterNew opened hfree =>
      refine (h.addAt hfree).enter ?_ line opened
      rw [State.size_addAt]
      omega
  | enterAgain hheld => exact h.enter (h.held_lt hheld) line _
  | expect => exact h
  | leave => exact h.leave
  | enterFast => exact h.fastSteps _
  | expectFast => exact h
  | leaveFast => exact h.fastSteps _

end Owned

/-- Ownership holds of every state that a log reaches. -/
theorem owned_of_runLines {indicator : String} {number : Nat} {lines : List String} {s : State}
    (h : runLines indicator number lines .initial = .reached s) : Owned s :=
  runLines_invariant (fun hs hstep => hs.step hstep) Owned.initial h

end SolverLog.Builder
