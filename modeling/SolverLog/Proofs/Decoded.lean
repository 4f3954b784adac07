import SolverLog.Proofs.Conservation
import SolverLog.Proofs.Inside

/-!
# What documents are made of

A text in a document is one that is not a number, for a literal that is written as a number is read
as one (`Value.decoded_ofLiteral`). A list of dictionaries in a document is not empty. Both hold at
any depth (`Document.decoded_of_ofLines`).

Every value in a document is a field of a record of its log, or the time level of a step, as the
conservation of fields has it (`Document.field_of_ofLines`).
-/

namespace SolverLog

open Number

/-! ## Values -/

/-- No text in a value is written as a number is. -/
inductive Value.Decoded : Value → Prop where
  | integer (value : Int) : Decoded (.integer value)
  | real (value : Binary64) : Decoded (.real value)
  | text {words : String} (h : Binary64.read? words.toList = none) : Decoded (.text words)
  | array {items : List Value} (h : ∀ item ∈ items, item.Decoded) : Decoded (.array items)

theorem Value.decoded_ofLiteral (literal : String) : (Value.ofLiteral literal).Decoded := by
  unfold Value.ofLiteral
  dsimp only
  split
  · exact .integer _
  · split
    · exact .real _
    · next hnumber => exact .text (by rwa [String.toList_ofList])

namespace Payload

theorem decoded_arrayOf (following : List String) : (arrayOf following).Decoded := by
  refine .array fun item hitem => ?_
  obtain ⟨literal, -, rfl⟩ := List.mem_map.mp hitem
  exact Value.decoded_ofLiteral literal

theorem decoded_valueOf (indicator : String) (following : List String) (key text : List Char) :
    (valueOf indicator following key text).Decoded := by
  unfold valueOf
  split
  · exact decoded_arrayOf following
  · exact Value.decoded_ofLiteral _

end Payload

theorem Entries.mem_putAll {α : Type} {entries : Entries α} {more : List (String × α)}
    {entry : String × α} (h : entry ∈ entries.putAll more) : entry ∈ entries ∨ entry ∈ more := by
  induction more generalizing entries with
  | nil => exact .inl h
  | cons first rest ih =>
    rcases ih h with hput | hrest
    · rcases Entries.mem_put hput with rfl | hold
      · exact .inr List.mem_cons_self
      · exact .inl hold
    · exact .inr (List.mem_cons_of_mem first hrest)

/-- A decoded field is read off a field of the payload. -/
theorem Payload.mem_decode {indicator written : String} {following : List String}
    {field : String × Value} (h : field ∈ decode indicator following written) :
    ∃ key text, (key, text) ∈ fields written ∧
      field = (String.ofList key, valueOf indicator following key text) := by
  rcases Entries.mem_putAll h with hnone | hfield
  · cases hnone
  · obtain ⟨⟨key, text⟩, hmem, rfl⟩ := List.mem_map.mp hfield
    exact ⟨key, text, hmem, rfl⟩

theorem Payload.decoded_decode {indicator payload : String} {following : List String}
    {field : String × Value} (h : field ∈ decode indicator following payload) :
    field.2.Decoded := by
  obtain ⟨key, text, -, rfl⟩ := mem_decode h
  exact decoded_valueOf indicator following key text

/-- The payload of a record of a log is decoded from that of a line, with the lines after it in view. -/
theorem Record.payload_of_mem_readAll {indicator : String} {lines : List String} {record : Record}
    (h : record ∈ readAll indicator lines) :
    ∃ line following header, line :: following <:+ lines ∧ Header.read? line = some header ∧
      record.payload = Payload.decode indicator following header.payload := by
  induction lines with
  | nil => cases h
  | cons line following ih =>
    rcases List.mem_append.mp h with hread | hrest
    · obtain ⟨header, hheader, rfl⟩ := Option.map_eq_some_iff.mp (Option.mem_toList.mp hread)
      exact ⟨line, following, header, List.suffix_refl _, hheader, rfl⟩
    · obtain ⟨other, more, header, hsuffix, hheader, hpayload⟩ := ih hrest
      exact ⟨other, more, header, hsuffix.trans (List.suffix_cons line following), hheader, hpayload⟩

/-- The fields of the records of a log are decoded. -/
theorem Record.decoded_of_mem_readAll {indicator : String} {lines : List String} {record : Record}
    (h : record ∈ readAll indicator lines) : ∀ field ∈ record.payload, field.2.Decoded := by
  obtain ⟨line, following, header, -, -, hpayload⟩ := payload_of_mem_readAll h
  rw [hpayload]
  exact fun field hfield => Payload.decoded_decode hfield

/-! ## Documents -/

/-- No text in a node is written as a number is, and no list in it is empty. -/
inductive Node.Decoded : Node → Prop where
  | value {held : Value} (h : held.Decoded) : Decoded (.value held)
  | dict {entries : Dict} (h : ∀ entry ∈ entries, entry.2.Decoded) : Decoded (.dict entries)
  | list {items : List Dict} (hne : items ≠ [])
      (h : ∀ dict ∈ items, ∀ entry ∈ dict, entry.2.Decoded) : Decoded (.list items)

/-- Every entry of the dictionary is decoded. -/
def Dict.Decoded (dict : Dict) : Prop :=
  ∀ entry ∈ dict, entry.2.Decoded

/-- Every entry of the document is decoded. -/
structure Document.Decoded (document : Document) : Prop where
  globals : document.globals.Decoded
  steps : ∀ step ∈ document.steps, Dict.Decoded step

namespace Builder

variable {s : State} {number : Nat} {key : String} {held : Value}

theorem mem_sum_map {α β : Type} {items : List α} {f : α → Multiset β} {b : β} :
    b ∈ (items.map f).sum ↔ ∃ item ∈ items, b ∈ f item := by
  induction items with
  | nil => simp
  | cons item rest ih => simp [ih]

/-- A value that a dictionary holds is among the fields of the store. -/
theorem State.mem_tally_slotFields (hentry : (key, Slot.value held) ∈ s.entries number) :
    (key, held) ∈ s.tally slotFields := by
  have hnumber : number < s.dicts.size := by
    by_contra hge
    rw [State.entries_of_size_le (Nat.le_of_not_lt hge)] at hentry
    cases hentry
  rw [State.tally_eq_sum_range, mem_sum_map]
  refine ⟨number, List.mem_range.mpr hnumber, ?_⟩
  rw [mem_sum_map]
  exact ⟨_, hentry, Multiset.mem_singleton_self _⟩

/-- A value of the store is a field of a record, or a time level: what holds of all of these holds of
it. -/
theorem field_of_runLines {P : String × Value → Prop} {indicator : String} {lines : List String}
    (hrun : runLines indicator 1 lines .initial = .reached s)
    (hfields : ∀ record ∈ Record.readAll indicator lines, ∀ field ∈ record.payload, P field)
    (hlevels : ∀ level : Int, P (Step.levelKey, .integer level))
    (hentry : (key, Slot.value held) ∈ s.entries number) : P (key, held) := by
  have hmem := State.mem_tally_slotFields hentry
  rw [(conserved_of_runLines Owned.initial hrun).1, State.tally_initial, zero_add,
    Multiset.mem_add, mem_sum_map, Multiset.mem_coe] at hmem
  rcases hmem with ⟨record, hrecord, hfield⟩ | hlevel
  · exact hfields record hrecord _ hfield
  · obtain ⟨level, -, heq⟩ := List.mem_map.mp hlevel
    cases heq
    exact hlevels level

/-- The values of the store are decoded. -/
theorem decoded_of_runLines {indicator : String} {lines : List String}
    (hrun : runLines indicator 1 lines .initial = .reached s)
    (hentry : (key, Slot.value held) ∈ s.entries number) : held.Decoded :=
  field_of_runLines (P := fun field => field.2.Decoded) hrun
    (fun _ hrecord => Record.decoded_of_mem_readAll hrecord) .integer hentry

/-- What a slot stands for is decoded if what it refers to is. -/
theorem Slot.decoded_standsFor {find : Nat → Dict} {slot : Slot}
    (hvalue : ∀ held, slot = .value held → held.Decoded)
    (hlist : ∀ numbers, slot = .list numbers → numbers ≠ [])
    (hfind : ∀ child ∈ slot.numbers, (find child).Decoded) : (slot.standsFor find).Decoded := by
  cases slot with
  | value held => exact .value (hvalue held rfl)
  | dict child => exact .dict (hfind child (by simp))
  | list numbers =>
    refine .list (mt List.map_eq_nil_iff.mp (hlist numbers rfl)) ?_
    intro dict hdict
    obtain ⟨child, hchild, rfl⟩ := List.mem_map.mp hdict
    exact hfind child (by simpa using hchild)

/-- What a number stands for is decoded if the values of the store are. -/
theorem Owned.decoded_dictOf (h : Owned s) (hfilled : Filled s)
    (hvalues : ∀ {number key held}, (key, Slot.value held) ∈ s.entries number → held.Decoded)
    (number : Nat) : (s.dictOf number).Decoded := by
  -- What a dictionary holds has a greater number.
  induction hsize : s.dicts.size - number using Nat.strongRecOn generalizing number with
  | ind size ih =>
    subst hsize
    intro entry hentry
    obtain ⟨slot, hslot, hnode⟩ := h.mem_dictOf hentry
    rw [hnode]
    refine Slot.decoded_standsFor ?_ ?_ ?_
    · rintro held rfl
      exact hvalues hslot
    · rintro numbers rfl
      exact hfilled.ne_nil hslot
    · intro child hchild
      have hlater := h.later number _ hslot child hchild
      have hlt := h.child_lt hslot hchild
      exact ih _ (by omega) child rfl

/-- Every document is decoded. -/
theorem decoded_document (h : Owned s) (hfilled : Filled s)
    (hvalues : ∀ {number key held}, (key, Slot.value held) ∈ s.entries number → held.Decoded) :
    s.document.Decoded := by
  rw [State.document_eq h]
  refine ⟨h.decoded_dictOf hfilled hvalues _, ?_⟩
  intro step hstep
  obtain ⟨number, -, rfl⟩ := List.mem_map.mp hstep
  exact h.decoded_dictOf hfilled hvalues number

end Builder

/-- Every value in a document is a field of a record, or a time level: what holds of all of these
holds of it. -/
theorem Document.field_of_ofLines {P : String × Value → Prop} {options : Options}
    {lines : List String} {document : Document} (h : ofLines options lines = .ok document)
    (hfields : ∀ record ∈ Record.readAll options.arrayIndicator lines,
      ∀ field ∈ record.payload, P field)
    (hlevels : ∀ level : Int, P (Step.levelKey, .integer level)) {dict : Dict}
    (hhas : document.Has dict) {key : String} {held : Value}
    (hentry : (key, Node.value held) ∈ dict) : P (key, held) := by
  obtain ⟨s, hrun, rfl⟩ := Builder.reached_of_ofLines h
  have howned := Builder.owned_of_runLines hrun
  obtain ⟨number, rfl⟩ := howned.exists_of_has hhas
  exact Builder.field_of_runLines hrun hfields hlevels (howned.value_mem_dictOf hentry)

/-- No text in a document is written as a number is, and no list of dictionaries in it is empty. -/
theorem Document.decoded_of_ofLines {options : Options} {lines : List String} {document : Document}
    (h : Document.ofLines options lines = .ok document) : document.Decoded := by
  obtain ⟨s, hrun, rfl⟩ := Builder.reached_of_ofLines h
  exact Builder.decoded_document (Builder.owned_of_runLines hrun) (Builder.filled_of_runLines hrun)
    (Builder.decoded_of_runLines hrun)

end SolverLog
