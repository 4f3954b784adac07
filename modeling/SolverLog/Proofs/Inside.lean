import SolverLog.Proofs.Lists

/-!
# Dictionaries anywhere in a document

`Document.Has` is about every dictionary of a document: the globals, the top-level steps, and all that
is within them. Each of them is what a number of the store stands for (`Owned.exists_of_has`), so what
holds of every dictionary of the store holds everywhere in the document.
-/

namespace SolverLog

/-- A dictionary is another one, or somewhere within it. -/
inductive Dict.Inside : Dict → Dict → Prop where
  | self (dict : Dict) : Inside dict dict
  | member {inner dict outer : Dict} {key : String} (hentry : (key, Node.dict dict) ∈ outer)
      (h : Inside inner dict) : Inside inner outer
  | element {inner dict outer : Dict} {key : String} {items : List Dict}
      (hentry : (key, Node.list items) ∈ outer) (hitem : dict ∈ items) (h : Inside inner dict) :
      Inside inner outer

/-- A dictionary is somewhere in a document. -/
def Document.Has (document : Document) (dict : Dict) : Prop :=
  dict.Inside document.globals ∨ ∃ step ∈ document.steps, dict.Inside step

namespace Builder

variable {s : State} {number : Nat} {key : String}

/-- Every entry of what a number stands for comes from a slot of its dictionary. -/
theorem Owned.mem_dictOf (h : Owned s) {node : Node} (hentry : (key, node) ∈ s.dictOf number) :
    ∃ slot, (key, slot) ∈ s.entries number ∧ node = slot.standsFor s.dictOf := by
  rw [h.dictOf_eq] at hentry
  obtain ⟨entry, hmem, heq⟩ := List.mem_map.mp hentry
  cases heq
  exact ⟨entry.2, hmem, rfl⟩

theorem Owned.value_mem_dictOf (h : Owned s) {held : Value}
    (hentry : (key, Node.value held) ∈ s.dictOf number) :
    (key, Slot.value held) ∈ s.entries number := by
  obtain ⟨slot, hmem, hnode⟩ := h.mem_dictOf hentry
  cases slot with
  | value other =>
      cases hnode
      exact hmem
  | dict child => cases hnode
  | list numbers => cases hnode

theorem Owned.dict_mem_dictOf (h : Owned s) {dict : Dict}
    (hentry : (key, Node.dict dict) ∈ s.dictOf number) :
    ∃ child, (key, Slot.dict child) ∈ s.entries number ∧ dict = s.dictOf child := by
  obtain ⟨slot, hmem, hnode⟩ := h.mem_dictOf hentry
  cases slot with
  | value held => cases hnode
  | dict child =>
      cases hnode
      exact ⟨child, hmem, rfl⟩
  | list numbers => cases hnode

theorem Owned.list_mem_dictOf (h : Owned s) {items : List Dict}
    (hentry : (key, Node.list items) ∈ s.dictOf number) :
    ∃ numbers, (key, Slot.list numbers) ∈ s.entries number ∧ items = numbers.map s.dictOf := by
  obtain ⟨slot, hmem, hnode⟩ := h.mem_dictOf hentry
  cases slot with
  | value held => cases hnode
  | dict child => cases hnode
  | list numbers =>
      cases hnode
      exact ⟨numbers, hmem, rfl⟩

/-- What is within the dictionary of a number is that of a number. -/
theorem Owned.exists_of_inside (h : Owned s) {inner outer : Dict} (hinside : inner.Inside outer)
    (houter : outer = s.dictOf number) : ∃ child, inner = s.dictOf child := by
  induction hinside generalizing number with
  | self => exact ⟨number, houter⟩
  | member hentry _ ih =>
      rw [houter] at hentry
      obtain ⟨child, -, hdict⟩ := h.dict_mem_dictOf hentry
      exact ih hdict
  | element hentry hitem _ ih =>
      rw [houter] at hentry
      obtain ⟨numbers, -, hitems⟩ := h.list_mem_dictOf hentry
      rw [hitems] at hitem
      obtain ⟨child, -, hdict⟩ := List.mem_map.mp hitem
      exact ih hdict.symm

/-- Every dictionary of a document is that of a number. -/
theorem Owned.exists_of_has (h : Owned s) {dict : Dict} (hhas : s.document.Has dict) :
    ∃ number, dict = s.dictOf number := by
  rw [State.document_eq h] at hhas
  rcases hhas with hglobals | ⟨step, hstep, hinside⟩
  · exact h.exists_of_inside hglobals rfl
  · obtain ⟨number, -, hdict⟩ := List.mem_map.mp hstep
    exact h.exists_of_inside hinside hdict.symm

end Builder

end SolverLog
