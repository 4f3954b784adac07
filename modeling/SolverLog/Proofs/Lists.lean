import SolverLog.Proofs.Refinement
import SolverLog.Proofs.Stamps

/-!
# The lists of a store

A list only gets longer, by the dictionaries of sections that are opened in it, and it is there only
once it has one.

* `Transition.lists` — a list is one of before, or one that a section was put at the end of.
* `Filled` — no list is empty.
-/

namespace SolverLog.Builder

variable {s t : State} {line parent number : Nat} {key : String} {numbers : List Nat}

/-- A list of the dictionary that a place is in, after a new dictionary is added there. -/
theorem lists_addAt_parent (fresh : Entries Slot) {place : Place}
    (hplace : place.parent? = some parent) (hparent : parent < s.dicts.size)
    (hentry : (key, Slot.list numbers) ∈ (s.addAt fresh place).entries parent) :
    (key, Slot.list numbers) ∈ s.entries parent ∨
      place = .element parent key ∧ numbers = s.elements parent key ++ [s.dicts.size] := by
  cases place with
  | topLevel => cases hplace
  | member other name =>
      cases hplace
      rw [State.addAt, (State.entries_add_set _ hparent name _).1] at hentry
      rcases Entries.mem_put hentry with hput | hold
      · cases hput
      · exact Or.inl hold
  | element other name =>
      cases hplace
      rw [State.addAt, (State.entries_add_set _ hparent name _).1] at hentry
      rcases Entries.mem_put hentry with hput | hold
      · cases hput
        exact Or.inr ⟨rfl, rfl⟩
      · exact Or.inl hold

/-- A list is one of before, or a section was opened that stands at its end. -/
theorem Transition.lists {move : Move} (hstep : Transition line s move t) (h : Owned s)
    (hentry : (key, Slot.list numbers) ∈ t.entries parent) :
    (key, Slot.list numbers) ∈ s.entries parent ∨
      ∃ opened, move = .enter opened ∧ s.place opened = .element parent key ∧
        numbers = s.elements parent key ++ [s.dicts.size] := by
  cases hstep with
  | skip | enterAgain | expect | leave | enterFast | expectFast | leaveFast => exact Or.inl hentry
  | set hnew =>
      rw [State.entries_set s h.current_lt] at hentry
      split at hentry
      · next heq =>
          subst heq
          rcases Entries.mem_put hentry with hput | hold
          · cases hput
          · exact Or.inl hold
      · exact Or.inl hentry
  | @enterNew opened hfree =>
      change (key, Slot.list numbers) ∈
        (s.addAt (s.newEntries opened) (s.place opened)).entries parent at hentry
      obtain ⟨hnew, hrest⟩ := entries_addAt (s.newEntries opened)
        fun other (hother : (s.place opened).parent? = some other) => h.parent_lt hother
      by_cases hsize : parent = s.dicts.size
      · -- The new dictionary itself has no list.
        subst hsize
        rw [hnew] at hentry
        cases opened <;> simp [State.newEntries] at hentry
      by_cases hplace : (s.place opened).parent? = some parent
      · rcases lists_addAt_parent _ hplace (h.parent_lt hplace) hentry with hold | ⟨hat, hnumbers⟩
        · exact Or.inl hold
        · exact Or.inr ⟨opened, rfl, hat, hnumbers⟩
      · rw [hrest parent hsize hplace] at hentry
        exact Or.inl hentry

/-- An element of a list was there before, or it is a new dictionary that is put there. -/
theorem Transition.listed {move : Move} (hstep : Transition line s move t) (h : Owned s)
    (hentry : (key, Slot.list numbers) ∈ t.entries parent) (hnumber : number ∈ numbers) :
    (∃ old, (key, Slot.list old) ∈ s.entries parent ∧ number ∈ old) ∨
      number = s.dicts.size ∧ ∃ opened, move = .enter opened ∧ s.place opened = .element parent key := by
  rcases hstep.lists h hentry with hold | ⟨opened, hmove, hplace, rfl⟩
  · exact Or.inl ⟨numbers, hold, hnumber⟩
  · rcases List.mem_append.mp hnumber with hold | hlast
    · obtain ⟨index, hindex⟩ := List.mem_iff_getElem?.mp hold
      exact Or.inl ⟨_, State.mem_of_elements hindex, hold⟩
    · exact Or.inr ⟨List.mem_singleton.mp hlast, opened, hmove, hplace⟩

/-- Fields that are set change no list. -/
theorem lists_sets {fields : Payload} (h : Owned s) (hrun : run line (Move.sets fields) s = .reached t)
    (hentry : (key, Slot.list numbers) ∈ t.entries parent) :
    (key, Slot.list numbers) ∈ s.entries parent := by
  rw [(entries_sets h hrun).2, List.mem_append] at hentry
  rcases hentry with hold | hnew
  · exact hold
  · split at hnew
    · simp at hnew
    · cases hnew

/-! ## Lists are not empty -/

/-- No list is empty. -/
structure Filled (s : State) : Prop where
  ne_nil : ∀ {parent : Nat} {key : String} {numbers : List Nat},
    (key, Slot.list numbers) ∈ s.entries parent → numbers ≠ []

theorem Filled.initial : Filled .initial where
  ne_nil := by simp [State.entries_initial]

theorem Filled.step {move : Move} (hf : Filled s) (h : Owned s) (hstep : Transition line s move t) :
    Filled t where
  ne_nil := by
    intro parent key numbers hentry
    rcases hstep.lists h hentry with hold | ⟨_, _, _, rfl⟩
    · exact hf.ne_nil hold
    · simp

/-- No list of a state that a log reaches is empty. -/
theorem filled_of_runLines {indicator : String} {lines : List String}
    (h : runLines indicator number lines .initial = .reached s) : Filled s := by
  have hboth : Owned s ∧ Filled s :=
    runLines_invariant (P := fun u => Owned u ∧ Filled u)
      (fun hs hstep => ⟨hs.1.step hstep, hs.2.step hs.1 hstep⟩) ⟨Owned.initial, Filled.initial⟩ h
  exact hboth.2

end SolverLog.Builder
