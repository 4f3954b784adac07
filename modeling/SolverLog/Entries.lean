/-!
# Entries: ordered dictionaries

Entries are keys with their values in the order in which the keys were first set. Setting a key
that is there already keeps its place and replaces its value.

* `value?_put` says what every key holds after a key is set.
* `keys_put` says where the key stands: where it was, or at the end.
-/

namespace SolverLog

/-- Keys with their values, in order. -/
abbrev Entries (α : Type) := List (String × α)

namespace Entries

variable {α : Type}

/-- The keys, in order. -/
def keys (entries : Entries α) : List String :=
  entries.map Prod.fst

/-- The value at a key. -/
def value? : Entries α → String → Option α
  | [], _ => none
  | (other, value) :: rest, key => if other = key then some value else value? rest key

/-- Sets a key: in its place if it is there, else at the end. -/
def put : Entries α → String → α → Entries α
  | [], key, value => [(key, value)]
  | (other, old) :: rest, key, value =>
    if other = key then (other, value) :: rest else (other, old) :: put rest key value

/-- Sets one key after the other. -/
def putAll (entries : Entries α) (more : List (String × α)) : Entries α :=
  more.foldl (fun entries (key, value) => entries.put key value) entries

theorem value?_put (entries : Entries α) (key other : String) (value : α) :
    (entries.put key value).value? other =
      if key = other then some value else entries.value? other := by
  induction entries with
  | nil => simp [put, value?]
  | cons entry rest ih =>
    obtain ⟨first, old⟩ := entry
    by_cases h : first = key
    · subst h
      by_cases ho : first = other <;> simp [put, value?, ho]
    · by_cases ho : first = other
      · subst ho
        simp [put, value?, h, Ne.symm h]
      · simp [put, value?, h, ho, ih]

theorem value?_isSome_iff (entries : Entries α) (key : String) :
    (entries.value? key).isSome ↔ key ∈ entries.keys := by
  induction entries with
  | nil => simp [value?, keys]
  | cons entry rest ih =>
    obtain ⟨first, old⟩ := entry
    by_cases h : first = key
    · simp [value?, keys, h]
    · simpa [value?, keys, h, Ne.symm h] using ih

theorem keys_put (entries : Entries α) (key : String) (value : α) :
    (entries.put key value).keys =
      if key ∈ entries.keys then entries.keys else entries.keys ++ [key] := by
  induction entries with
  | nil => simp [put, keys]
  | cons entry rest ih =>
    obtain ⟨first, old⟩ := entry
    by_cases h : first = key
    · simp [put, keys, h]
    · have hcons :
          keys (put ((first, old) :: rest) key value) = first :: keys (put rest key value) := by
        simp [put, keys, h]
      rw [hcons, ih]
      by_cases hm : key ∈ keys rest
      · simp_all [keys]
      · simp_all [keys, Ne.symm h]

end Entries

end SolverLog
