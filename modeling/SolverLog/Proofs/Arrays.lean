import Mathlib.Data.List.TakeWhile
import SolverLog.Proofs.Concatenation

/-!
# How far arrays reach

An array is the only part of a record that stands on other lines. It ends at a line that is blank or a
record, so the lines of a log are read without the lines after them unless an array of the last record
goes on there.

* `Payload.decode_congr` — fields of which none is an array do not depend on the lines that follow.
* `NoArrayAcross`, `Move.ofLines_of_noArrayAcross` — lines that are carried out alike, whatever follows.
-/

namespace SolverLog

/-- The keys of entries, and those that are set. -/
theorem Entries.mem_keys_putAll {α : Type} {entries : Entries α} {more : List (String × α)}
    {key : String} :
    key ∈ (entries.putAll more).keys ↔ key ∈ entries.keys ∨ key ∈ more.map Prod.fst := by
  induction more generalizing entries with
  | nil => simp [Entries.putAll]
  | cons field rest ih =>
      have hput : key ∈ (entries.put field.1 field.2).keys ↔ key ∈ entries.keys ∨ key = field.1 := by
        rw [keys_put]
        split
        · next hmem =>
            constructor
            · exact .inl
            · rintro (hkey | rfl)
              · exact hkey
              · exact hmem
        · rw [List.mem_append, List.mem_singleton]
      show key ∈ ((entries.put field.1 field.2).putAll rest).keys ↔ _
      rw [ih, hput, List.map_cons, List.mem_cons, or_assoc]

namespace Payload

/-- Whether a key is that of an array. The empty indicator marks none. -/
def ArrayKey (indicator key : String) : Prop :=
  indicator ≠ "" ∧ indicator.toList <:+ key.toList

instance (indicator key : String) : Decidable (ArrayKey indicator key) :=
  inferInstanceAs (Decidable (_ ∧ _))

theorem isArrayKey_iff {indicator : String} {key : List Char} :
    isArrayKey indicator key = true ↔ ArrayKey indicator (String.ofList key) := by
  unfold isArrayKey ArrayKey
  rw [Bool.and_eq_true, decide_eq_true_eq, List.isSuffixOf_iff_suffix, String.toList_ofList]

/-- The value of a field that is no array is its text, read as a literal. -/
theorem valueOf_of_not_arrayKey {indicator : String} {key text : List Char}
    (h : ¬ArrayKey indicator (String.ofList key)) {following : List String} :
    valueOf indicator following key text = Value.ofLiteral (String.ofList text) := by
  unfold valueOf
  rw [if_neg (mt isArrayKey_iff.mp h)]

/-- Fields of which none is an array do not depend on the lines that follow. -/
theorem decode_congr {indicator payload : String} {following following' : List String}
    (h : ∀ key ∈ (decode indicator following payload).keys, ¬ArrayKey indicator key) :
    decode indicator following payload = decode indicator following' payload := by
  unfold decode at h ⊢
  congr 1
  refine List.map_congr_left fun field hfield => ?_
  have hkey : ¬ArrayKey indicator (String.ofList field.1) :=
    h _ (Entries.mem_keys_putAll.mpr (.inr (List.mem_map.mpr ⟨_, List.mem_map_of_mem hfield, rfl⟩)))
  simp only [valueOf_of_not_arrayKey hkey]

/-- An array that ends before the last of some lines does not go on behind them. -/
theorem arrayOf_append_of_mem {following : List String} {line : String} (hline : line ∈ following)
    (hends : isArrayLine line = false) (more : List String) :
    arrayOf (following ++ more) = arrayOf following := by
  rcases arrayOf_append_cases following more with h | h
  · exact h
  · unfold arrayOf
    rw [List.takeWhile_append]
    split
    · next hlength =>
        have hall := (List.takeWhile_prefix isArrayLine).eq_of_length hlength
        rw [← hall] at hline
        rw [List.mem_takeWhile_imp hline] at hends
        cases hends
    · rfl

end Payload

variable {indicator : String} {lines following : List String}

/-- No array of the lines goes on into the lines that follow: these start afresh, or the last record of
the lines has no array. -/
def NoArrayAcross (indicator : String) (lines following : List String) : Prop :=
  StartsAfresh following ∨ ∀ record ∈ (Record.readAll indicator lines).getLast?,
    ∀ key ∈ record.payload.keys, ¬Payload.ArrayKey indicator key

instance (indicator : String) (lines following : List String) :
    Decidable (NoArrayAcross indicator lines following) :=
  inferInstanceAs (Decidable (_ ∨ _))

/-- A record without an array is read without the lines that follow. -/
theorem Record.read?_congr {line : String} {record : Record}
    (hread : read? indicator line lines = some record)
    (hscalar : ∀ key ∈ record.payload.keys, ¬Payload.ArrayKey indicator key)
    (following : List String) : read? indicator line following = some record := by
  obtain ⟨header, hheader, rfl⟩ := Option.map_eq_some_iff.mp hread
  unfold read?
  rw [hheader, Option.map_some, Payload.decode_congr hscalar]

/-- A record before another one is read without the lines after that one. -/
theorem Record.read?_append_of_mem {line other : String} (hother : other ∈ lines)
    (hrecord : isRecordLine other = true) (following : List String) :
    read? indicator line (lines ++ following) = read? indicator line lines := by
  have hends : Payload.isArrayLine other = false := by simp [Payload.isArrayLine, hrecord]
  simp only [read?, Payload.decode, Payload.valueOf, Payload.arrayOf_append_of_mem hother hends]

theorem Record.exists_of_mem_readAll {record : Record} (h : record ∈ readAll indicator lines) :
    ∃ line ∈ lines, isRecordLine line = true := by
  induction lines with
  | nil => cases h
  | cons line following ih =>
      rcases List.mem_append.mp h with hread | hrest
      · obtain ⟨header, hheader, -⟩ := Option.map_eq_some_iff.mp (Option.mem_toList.mp hread)
        exact ⟨line, List.mem_cons_self, isRecordLine_of_read? hheader⟩
      · obtain ⟨other, hother, hrecord⟩ := ih hrest
        exact ⟨other, List.mem_cons_of_mem line hother, hrecord⟩

namespace Builder

/-- Lines that no array leaves are carried out alike, whatever follows. -/
theorem Move.ofLines_of_noArrayAcross (h : NoArrayAcross indicator lines following) :
    Move.ofLines indicator following lines = Move.ofLines indicator [] lines := by
  induction lines with
  | nil => rfl
  | cons line rest ih =>
      have hboth : NoArrayAcross indicator rest following ∧
          Record.read? indicator line (rest ++ following) = Record.read? indicator line rest := by
        rcases h with hafresh | hlast
        · exact ⟨.inl hafresh, Record.read?_append hafresh indicator line rest⟩
        · rw [Record.readAll] at hlast
          by_cases hrest : Record.readAll indicator rest = []
          · -- The line is the last record, if it is one.
            rw [hrest, List.append_nil] at hlast
            refine ⟨.inr (by rw [hrest]; simp), ?_⟩
            cases hread : Record.read? indicator line rest with
            | some record =>
                rw [hread] at hlast
                exact Record.read?_congr hread (hlast record rfl) _
            | none =>
                obtain hheader := Option.map_eq_none_iff.mp hread
                unfold Record.read?
                rw [hheader, Option.map_none]
          · rw [List.getLast?_append_of_ne_nil _ hrest] at hlast
            obtain ⟨record, hrecord⟩ := List.exists_mem_of_ne_nil _ hrest
            obtain ⟨other, hother, hline⟩ := Record.exists_of_mem_readAll hrecord
            exact ⟨.inr hlast, Record.read?_append_of_mem hother hline following⟩
      simp only [Move.ofLines, Move.ofLine, List.append_nil, hboth.2, ih hboth.1]

end Builder

end SolverLog
