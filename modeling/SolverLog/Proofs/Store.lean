import Mathlib.Algebra.BigOperators.Group.List.Basic
import Mathlib.Tactic.Abel
import SolverLog.Builder.Assembly

/-!
# The store, operation by operation

What the operations on a store do to the entries of each dictionary, and to a sum over all entries
of a store (`State.tally`). Every count of what a store holds is such a sum: of the numbers that it
refers to, of its values, of the elements of its lists.

* `entries_set`, `entries_add` — the entries after a key is set, after a dictionary is added.
* `tally_set`, `tally_add` — a sum after a key is set, after a dictionary is added.
-/

namespace SolverLog

namespace Entries

variable {α β : Type}

/-- A new key goes to the end. -/
theorem put_of_value?_eq_none {entries : Entries α} {key : String} (value : α)
    (h : entries.value? key = none) : entries.put key value = entries ++ [(key, value)] := by
  induction entries with
  | nil => rfl
  | cons entry rest ih =>
      rcases entry with ⟨other, old⟩
      by_cases hkey : other = key
      · simp [value?, hkey] at h
      · have hrest : value? rest key = none := by simpa [value?, hkey] using h
        simp [put, hkey, ih hrest]

theorem mem_of_value? {entries : Entries α} {key : String} {value : α}
    (h : entries.value? key = some value) : (key, value) ∈ entries := by
  induction entries with
  | nil => simp [value?] at h
  | cons entry rest ih =>
      rcases entry with ⟨other, old⟩
      by_cases hkey : other = key
      · simp [value?, hkey] at h
        simp [hkey, h]
      · have hrest : value? rest key = some value := by simpa [value?, hkey] using h
        exact List.mem_cons_of_mem _ (ih hrest)

theorem mem_keys_of_mem {entries : Entries α} {entry : String × α} (h : entry ∈ entries) :
    entry.1 ∈ entries.keys :=
  List.mem_map_of_mem h

/-- With no key twice, each entry is what its key holds. -/
theorem value?_of_mem {entries : Entries α} (hkeys : entries.keys.Nodup) {key : String} {value : α}
    (h : (key, value) ∈ entries) : entries.value? key = some value := by
  induction entries with
  | nil => simp at h
  | cons entry rest ih =>
      rcases entry with ⟨other, old⟩
      have hnodup : other ∉ keys rest ∧ (keys rest).Nodup := by simpa [keys] using hkeys
      rcases List.mem_cons.mp h with heq | hrest
      · cases heq
        simp [value?]
      · have hne : other ≠ key := by
          intro heq
          exact hnodup.1 (heq ▸ mem_keys_of_mem hrest)
        simp [value?, hne, ih hnodup.2 hrest]

theorem nodup_keys_put {entries : Entries α} (h : entries.keys.Nodup) (key : String) (value : α) :
    (entries.put key value).keys.Nodup := by
  rw [keys_put]
  split
  · exact h
  · next hkey => exact List.nodup_append.mpr ⟨h, by simp, by rintro a ha b hb rfl; simp_all⟩

theorem mem_put {entries : Entries α} {key : String} {value : α} {entry : String × α}
    (h : entry ∈ entries.put key value) : entry = (key, value) ∨ entry ∈ entries := by
  induction entries with
  | nil => simpa [put] using h
  | cons first rest ih =>
      rcases first with ⟨other, old⟩
      by_cases hkey : other = key
      · subst hkey
        rw [put, if_pos rfl, List.mem_cons] at h
        exact h.imp_right (List.mem_cons_of_mem _)
      · rw [put, if_neg hkey, List.mem_cons] at h
        rcases h with rfl | hrest
        · exact Or.inr List.mem_cons_self
        · exact (ih hrest).imp_right (List.mem_cons_of_mem _)

theorem value?_map (entries : Entries α) (change : α → β) (key : String) :
    value? (entries.map fun entry => (entry.1, change entry.2)) key =
      (entries.value? key).map change := by
  induction entries with
  | nil => rfl
  | cons entry rest ih =>
      rcases entry with ⟨other, old⟩
      by_cases hkey : other = key
      · simp [value?, hkey]
      · simp [value?, hkey, ih]

theorem value?_append (first second : Entries α) (key : String) :
    value? (first ++ second) key = (first.value? key).or (second.value? key) := by
  induction first with
  | nil => simp [value?]
  | cons entry rest ih =>
      rcases entry with ⟨other, old⟩
      by_cases hkey : other = key
      · simp [value?, hkey]
      · simp [value?, hkey, ih]

/-- Setting a key of entries of which each is changed. -/
theorem map_put (entries : Entries α) (change : α → β) (key : String) (value : α) :
    ((entries.put key value).map fun entry => (entry.1, change entry.2)) =
      put (entries.map fun entry => (entry.1, change entry.2)) key (change value) := by
  induction entries with
  | nil => rfl
  | cons entry rest ih =>
      rcases entry with ⟨other, old⟩
      by_cases hkey : other = key
      · simp [put, hkey]
      · simp [put, hkey, ih]

/-- A sum over the entries after a key is set: the old value no longer counts. -/
theorem sum_map_put {M : Type} [AddCommMonoid M] (f : String × α → M) (entries : Entries α)
    (key : String) (value : α) :
    ((entries.put key value).map f).sum + ((entries.value? key).elim 0 fun old => f (key, old)) =
      (entries.map f).sum + f (key, value) := by
  induction entries with
  | nil => simp [put, value?]
  | cons entry rest ih =>
      rcases entry with ⟨other, old⟩
      by_cases hkey : other = key
      · subst hkey
        simp only [put, value?, if_pos, List.map_cons, List.sum_cons, Option.elim_some]
        abel
      · simp only [put, value?, if_neg hkey, List.map_cons, List.sum_cons, add_assoc, ih]

end Entries

/-- A sum over a list after one of its items is changed. -/
theorem sum_map_modify {α M : Type} [AddCommMonoid M] (f : α → M) (change : α → α) {a b : M} :
    ∀ (items : List α) (index : Nat) (h : index < items.length),
      f (change items[index]) + a = f items[index] + b →
        ((items.modify index change).map f).sum + a = (items.map f).sum + b := by
  intro items
  induction items with
  | nil => intro index h; simp at h
  | cons item rest ih =>
      intro index h heq
      cases index with
      | zero =>
          simp only [List.getElem_cons_zero] at heq
          simp only [List.modify_zero_cons, List.map_cons, List.sum_cons]
          rw [add_right_comm, heq, add_right_comm]
      | succ index =>
          have hrest := ih index (by simpa using h) (by simpa using heq)
          simp only [List.modify_succ_cons, List.map_cons, List.sum_cons, add_assoc, hrest]

namespace Builder

/-- The numbers of the dictionaries that a slot refers to. -/
def Slot.numbers : Slot → List Nat
  | value _ => []
  | dict number => [number]
  | list numbers => numbers

@[simp] theorem Slot.numbers_value (held : Value) : (Slot.value held).numbers = [] := rfl

@[simp] theorem Slot.numbers_dict (number : Nat) : (Slot.dict number).numbers = [number] := rfl

@[simp] theorem Slot.numbers_list (numbers : List Nat) : (Slot.list numbers).numbers = numbers :=
  rfl

namespace State

variable {state : State}

/-! ## The entries after an operation -/

@[simp] theorem size_set (state : State) (number : Nat) (key : String) (slot : Slot) :
    (state.set number key slot).dicts.size = state.dicts.size := by
  simp [set]

@[simp] theorem size_add (state : State) (fresh : Entries Slot) :
    (state.add fresh).dicts.size = state.dicts.size + 1 := by
  simp [add]

theorem entries_of_size_le {number : Nat} (h : state.dicts.size ≤ number) :
    state.entries number = [] := by
  simp [entries, h]

theorem entries_set (state : State) {number : Nat} (h : number < state.dicts.size) (key : String)
    (slot : Slot) (other : Nat) :
    (state.set number key slot).entries other =
      if other = number then (state.entries number).put key slot else state.entries other := by
  by_cases hother : other = number
  · subst hother
    simp [entries, set, h, Array.getElem_modify]
  · simp [entries, set, Array.getElem?_modify, hother, Ne.symm hother]

theorem entries_add (state : State) (fresh : Entries Slot) (other : Nat) :
    (state.add fresh).entries other =
      if other = state.dicts.size then fresh else state.entries other := by
  simp only [entries, add, Array.getD_eq_getD_getElem?, Array.getElem?_push]
  split <;> rfl

theorem entries_initial (number : Nat) : State.initial.entries number = [] := by
  cases number <;> simp [initial, entries]

@[simp] theorem size_addAt (state : State) (fresh : Entries Slot) (place : Place) :
    (state.addAt fresh place).dicts.size = state.dicts.size + 1 := by
  cases place <;> simp [addAt]

@[simp] theorem frames_addAt (state : State) (fresh : Entries Slot) (place : Place) :
    (state.addAt fresh place).frames = state.frames := by
  cases place <;> rfl

@[simp] theorem depth_addAt (state : State) (fresh : Entries Slot) (place : Place) :
    (state.addAt fresh place).depth = state.depth := by
  cases place <;> rfl

@[simp] theorem fastSteps_addAt (state : State) (fresh : Entries Slot) (place : Place) :
    (state.addAt fresh place).fastSteps = state.fastSteps := by
  cases place <;> rfl

/-! ## What there is at a place -/

theorem value?_of_free_member {parent : Nat} {key : String}
    (h : state.vacancy (.member parent key) = .free) :
    (state.entries parent).value? key = none := by
  simp only [vacancy] at h
  split at h <;> simp_all

theorem value?_of_free_element {parent : Nat} {key : String}
    (h : state.vacancy (.element parent key) = .free) :
    (state.entries parent).value? key = none ∨
      ∃ numbers, (state.entries parent).value? key = some (.list numbers) := by
  simp only [vacancy] at h
  split at h <;> simp_all

/-- A dictionary that is used again is at a key of the one that holds the place. -/
theorem value?_of_held {place : Place} {number : Nat} (h : state.vacancy place = .held number) :
    ∃ parent key, place = .member parent key ∧
      (state.entries parent).value? key = some (.dict number) := by
  cases place with
  | topLevel => simp [vacancy] at h
  | member parent key =>
      refine ⟨parent, key, rfl, ?_⟩
      simp only [vacancy] at h
      split at h <;> simp_all
  | element parent key =>
      simp only [vacancy] at h
      split at h <;> simp at h

/-- A section whose place is a key is a plain one. -/
theorem eq_plain_of_place {opened : Section} {parent : Nat} {key : String}
    (hplace : state.place opened = .member parent key) : opened = .plain key := by
  cases opened with
  | plain name =>
      cases hplace
      rfl
  | entry list => cases hplace
  | step =>
      simp only [place] at hplace
      split at hplace
      · cases hplace
      · split at hplace <;> cases hplace

/-! ## Sums over the store -/

/-- The sum of a measure over all entries of a store. -/
def tally {M : Type} [AddCommMonoid M] (state : State) (measure : String × Slot → M) : M :=
  (state.dicts.toList.map fun entries => (entries.map measure).sum).sum

variable {M : Type} [AddCommMonoid M] (measure : String × Slot → M)

/-- The sum over the store is one over the numbers of its dictionaries. -/
theorem tally_eq_sum_range (state : State) :
    state.tally measure =
      ((List.range state.dicts.size).map fun number =>
        ((state.entries number).map measure).sum).sum := by
  have hlist : state.dicts.toList = (List.range state.dicts.size).map state.entries := by
    apply List.ext_getElem
    · simp
    · intro number h _
      simp at h
      simp [entries, h]
  rw [tally, hlist, List.map_map]
  rfl

theorem tally_initial : State.initial.tally measure = 0 := by
  simp [tally, initial]

/-- Setting a key counts what is set, and no longer what was there. -/
theorem tally_set (state : State) {number : Nat} (h : number < state.dicts.size) (key : String)
    (slot : Slot) :
    (state.set number key slot).tally measure +
        (((state.entries number).value? key).elim 0 fun old => measure (key, old)) =
      state.tally measure + measure (key, slot) := by
  have hlength : number < state.dicts.toList.length := by simpa using h
  have hget : state.dicts.toList[number] = state.entries number := by simp [entries, h]
  simp only [tally, set, Array.toList_modify]
  apply sum_map_modify _ _ _ _ hlength
  rw [hget]
  exact Entries.sum_map_put measure (state.entries number) key slot

theorem tally_add (state : State) (fresh : Entries Slot) :
    (state.add fresh).tally measure = state.tally measure + (fresh.map measure).sum := by
  simp [tally, add]

end State

end Builder

end SolverLog
