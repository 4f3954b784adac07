import SolverLog.Proofs.RoundTrip

/-!
# What a payload means

A payload is decoded field by field, and a key that occurs again takes the place that it has already. What
comes of it can be said without the order of these steps: the keys stand as they occur first, each with
the value of the field in which it occurs last.

* `Entries.Collects`, `Entries.putAll_eq_iff` — what comes of setting keys one after the other.
* `Entries.putAll_putAll` — keys that are set already can be set again all at once.
* `Payload.Means` — the meaning of a payload, and `Payload.decode_meaning`, that it is decoded so.
-/

namespace SolverLog

namespace Entries

variable {α : Type} {entries entries' : Entries α} {fields : List (String × α)} {key other : String}
  {value old : α}

/-! ## Setting keys one after the other -/

theorem putAll_append (entries : Entries α) (fields more : List (String × α)) :
    entries.putAll (fields ++ more) = (entries.putAll fields).putAll more :=
  List.foldl_append

/-- The entries have the keys of the fields in the order in which they occur first, each with the value
with which it occurs last. -/
structure Collects (fields : List (String × α)) (entries : Entries α) : Prop where
  keys_eq : entries.keys = (fields.map Prod.fst).eraseDups
  latest : ∀ key value, (key, value) ∈ entries →
    ∃ before after, fields = before ++ (key, value) :: after ∧ key ∉ after.map Prod.fst

/-- No key is there twice after keys are set one after the other. -/
theorem nodup_keys_collected (fields : List (String × α)) : (putAll [] fields).keys.Nodup :=
  @nodup_keys_putAll α [] List.nodup_nil fields

/-- Keys that are set one after the other are collected. -/
theorem collects_putAll (fields : List (String × α)) : Collects fields (putAll [] fields) := by
  induction fields using List.reverseRecOn with
  | nil => exact ⟨rfl, fun key value hmem => nomatch hmem⟩
  | append_singleton fields field ih =>
      obtain ⟨key, value⟩ := field
      have hput : putAll [] (fields ++ [(key, value)]) = (putAll [] fields).put key value :=
        putAll_append [] fields [(key, value)]
      rw [hput]
      refine ⟨?_, ?_⟩
      · rw [keys_put, ih.keys_eq, List.map_append, List.eraseDups_append]
        by_cases hkey : key ∈ fields.map Prod.fst
        · simp [hkey, List.removeAll]
        · simp [hkey, List.removeAll, List.eraseDups_cons]
      · intro other held hmem
        by_cases hkey : other = key
        · -- The key occurs last in the field that is set last.
          subst hkey
          have hheld := value?_of_mem (nodup_keys_put (nodup_keys_collected fields) other value) hmem
          rw [value?_put, if_pos rfl] at hheld
          cases hheld
          exact ⟨fields, [], rfl, List.not_mem_nil⟩
        · rcases mem_put hmem with heq | hold
          · exact absurd (congrArg Prod.fst heq) hkey
          · obtain ⟨before, after, rfl, hafter⟩ := ih.latest other held hold
            refine ⟨before, after ++ [(key, value)], by simp, ?_⟩
            simpa [hkey] using hafter

/-- Entries with the same keys are the same if no key has two values in them. -/
theorem eq_of_keys_eq (hkeys : entries.keys = entries'.keys)
    (hvalue : ∀ key value value', (key, value) ∈ entries → (key, value') ∈ entries' →
      value = value') :
    entries = entries' := by
  induction entries generalizing entries' with
  | nil => exact (List.map_eq_nil_iff.mp hkeys.symm).symm
  | cons entry rest ih =>
      cases entries' with
      | nil => cases hkeys
      | cons entry' rest' =>
          obtain ⟨key, value⟩ := entry
          obtain ⟨key', value'⟩ := entry'
          obtain ⟨rfl, hrest⟩ := List.cons.inj hkeys
          have hfirst := hvalue key value value' List.mem_cons_self List.mem_cons_self
          have hothers := ih hrest fun other held held' hmem hmem' =>
            hvalue other held held' (List.mem_cons_of_mem _ hmem) (List.mem_cons_of_mem _ hmem')
          rw [hfirst, hothers]

/-- Fields are collected in one way only. -/
theorem Collects.unique (h : Collects fields entries) (h' : Collects fields entries') :
    entries = entries' := by
  have hlast {entries : Entries α} (h : Collects fields entries) {key : String} {value : α}
      (hmem : (key, value) ∈ entries) : value? fields.reverse key = some value := by
    obtain ⟨before, after, rfl, hafter⟩ := h.latest key value hmem
    have hnone : value? after.reverse key = none := by
      rw [← Option.not_isSome_iff_eq_none, value?_isSome_iff]
      simpa [keys] using hafter
    simp [value?_append, hnone, value?]
  refine eq_of_keys_eq (h.keys_eq.trans h'.keys_eq.symm) fun key value value' hmem hmem' => ?_
  exact Option.some.inj ((hlast h hmem).symm.trans (hlast h' hmem'))

theorem putAll_eq_iff : putAll [] fields = entries ↔ Collects fields entries :=
  ⟨fun h => h ▸ collects_putAll fields, (collects_putAll fields).unique⟩

/-! ## Setting keys again -/

/-- Of two values that are set at a key the later one is left. -/
theorem put_put (entries : Entries α) (key : String) (old value : α) :
    (entries.put key old).put key value = entries.put key value := by
  induction entries with
  | nil => simp [put]
  | cons entry rest ih =>
      obtain ⟨first, held⟩ := entry
      by_cases hkey : first = key <;> simp [put, hkey, ih]

/-- A key that is there can be set before or after another one. -/
theorem put_comm (h : key ∈ entries.keys) (hne : other ≠ key) :
    (entries.put other old).put key value = (entries.put key value).put other old := by
  induction entries with
  | nil => cases h
  | cons entry rest ih =>
      obtain ⟨first, held⟩ := entry
      by_cases hkey : first = key
      · subst hkey
        simp [put, Ne.symm hne]
      · have hrest : key ∈ keys rest := (List.mem_cons.mp h).resolve_left (Ne.symm hkey)
        by_cases hother : first = other
        · subst hother
          simp [put, hkey]
        · simp [put, hkey, hother, ih hrest]

/-- A key that is there can be set before or after others. -/
theorem putAll_put_of_mem {more : Entries α} (h : key ∈ entries.keys) (hmore : key ∉ more.keys) :
    (entries.putAll more).put key value = (entries.put key value).putAll more := by
  induction more generalizing entries with
  | nil => rfl
  | cons entry rest ih =>
      obtain ⟨other, held⟩ := entry
      obtain ⟨hne, hrest⟩ := not_or.mp (mt List.mem_cons.mpr hmore)
      have hput : key ∈ (entries.put other held).keys := by
        rw [keys_put]
        split
        · exact h
        · exact List.mem_append_left _ h
      show ((entries.put other held).putAll rest).put key value =
        ((entries.put key value).put other held).putAll rest
      rw [ih hput hrest, put_comm h (Ne.symm hne)]

/-- A key that is set in entries before they are set is set last. -/
theorem putAll_put {more : Entries α} (hnodup : more.keys.Nodup) (key : String) (value : α) :
    entries.putAll (more.put key value) = (entries.putAll more).put key value := by
  induction more generalizing entries with
  | nil => rfl
  | cons entry rest ih =>
      obtain ⟨first, held⟩ := entry
      obtain ⟨hfirst, hrest⟩ := List.nodup_cons.mp hnodup
      by_cases hkey : first = key
      · subst hkey
        have hput : first ∈ (entries.put first held).keys := by
          rw [← value?_isSome_iff, value?_put, if_pos rfl, Option.isSome_some]
        have hset : put ((first, held) :: rest) first value = (first, value) :: rest := by simp [put]
        rw [hset]
        show (entries.put first value).putAll rest =
          ((entries.put first held).putAll rest).put first value
        rw [putAll_put_of_mem hput hfirst, put_put]
      · have hset : put ((first, held) :: rest) key value = (first, held) :: put rest key value := by
          simp [put, hkey]
        rw [hset]
        exact ih hrest

/-- Entries that are set one after the other in a place of their own, and then all at once. -/
theorem putAll_putAll (entries : Entries α) (fields : List (String × α)) :
    entries.putAll (putAll [] fields) = entries.putAll fields := by
  induction fields using List.reverseRecOn with
  | nil => rfl
  | append_singleton fields field ih =>
      rw [putAll_append, putAll_append]
      show entries.putAll ((putAll [] fields).put field.1 field.2) =
        (entries.putAll fields).put field.1 field.2
      rw [putAll_put (nodup_keys_collected fields), ih]

end Entries

namespace Payload

variable {indicator payload : String} {following : List String} {piece : List Char}

/-! ## Pieces, fields and values -/

/-- The pieces of a text between its commas. -/
structure Parted (text : List Char) (pieces : List (List Char)) : Prop where
  nonempty : pieces ≠ []
  comma : ∀ piece ∈ pieces, ',' ∉ piece
  join : [','].intercalate pieces = text

theorem parted_iff {text : List Char} {pieces : List (List Char)} :
    Parted text pieces ↔ text.splitOn ',' = pieces := by
  constructor
  · intro h
    rw [← h.join]
    exact List.splitOn_intercalate ',' h.comma h.nonempty
  · rintro rfl
    refine ⟨List.splitOn_ne_nil ',' text, ?_, List.intercalate_splitOn ','⟩
    exact fun piece hpiece hmem => (Text.mem_of_mem_splitOn hpiece hmem).2 rfl

/-- The key and the text of a piece: what stands before its first equals sign and what stands behind it,
or the whole piece and nothing. -/
inductive FieldOf : List Char → List Char × List Char → Prop where
  | assigned {key text : List Char} (h : '=' ∉ key) :
      FieldOf (key ++ '=' :: text) (Text.trim key, Text.trim text)
  | bare {key : List Char} (h : '=' ∉ key) : FieldOf key (Text.trim key, [])

theorem splitField_of_not_mem {key : List Char} (h : '=' ∉ key) :
    splitField key = (Text.trim key, []) := by
  have hkey : ∀ c ∈ key, decide (c ≠ '=') = true := fun c hc =>
    decide_eq_true fun heq => h (heq ▸ hc)
  unfold splitField
  rw [List.takeWhile_eq_self_iff.mpr hkey, List.dropWhile_eq_nil_iff.mpr hkey]
  rfl

theorem fieldOf_iff {field : List Char × List Char} : FieldOf piece field ↔ splitField piece = field := by
  constructor
  · intro h
    cases h with
    | assigned h => exact splitField_of_mem h
    | bare h => exact splitField_of_not_mem h
  · rintro rfl
    by_cases hequals : '=' ∈ piece
    · obtain ⟨key, text, rfl, hkey⟩ := List.eq_append_cons_of_mem hequals
      rw [splitField_of_mem hkey]
      exact .assigned hkey
    · rw [splitField_of_not_mem hequals]
      exact .bare hequals

/-- A line that can belong to an array: not all of it is blank, and it is no record line. -/
def ArrayLine (line : String) : Prop :=
  (∃ c ∈ line.toList, Text.isBlank c = false) ∧ isRecordLine line = false

theorem isArrayLine_iff {line : String} : isArrayLine line = true ↔ ArrayLine line := by
  have hblank :
      (Text.trim line.toList).isEmpty = false ↔ ∃ c ∈ line.toList, Text.isBlank c = false := by
    rw [← Bool.not_eq_true, List.isEmpty_iff, Text.trim_eq_nil_iff]
    simp
  unfold isArrayLine ArrayLine
  rw [Bool.and_eq_true, Bool.not_eq_true', Bool.not_eq_true', hblank]

/-- The value of a key and a text, by the lines that follow. An array is on the longest run of lines that can
belong to it. -/
inductive ValueOf (indicator : String) (following : List String) : String → String → Value → Prop where
  | array {key text : String} {run rest : List String} (hkey : ArrayKey indicator key)
      (hfollowing : following = run ++ rest) (hrun : ∀ line ∈ run, ArrayLine line)
      (hrest : ∀ line ∈ rest.head?, ¬ArrayLine line) :
      ValueOf indicator following key text (.array (run.map Value.ofLiteral))
  | literal {key text : String} (hkey : ¬ArrayKey indicator key) :
      ValueOf indicator following key text (Value.ofLiteral text)

theorem valueOf_iff {key text : List Char} {value : Value} :
    ValueOf indicator following (String.ofList key) (String.ofList text) value ↔
      valueOf indicator following key text = value := by
  constructor
  · intro h
    cases h with
    | @array run rest hkey hfollowing hrun hrest =>
        have hlines : ∀ line ∈ run, isArrayLine line := fun line hline =>
          isArrayLine_iff.mpr (hrun line hline)
        have hends : rest.takeWhile isArrayLine = [] := by
          cases rest with
          | nil => rfl
          | cons line rest => exact List.takeWhile_cons_of_neg (mt isArrayLine_iff.mp (hrest line rfl))
        unfold valueOf arrayOf
        rw [if_pos (isArrayKey_iff.mpr hkey), hfollowing, List.takeWhile_append_of_pos hlines, hends,
          List.append_nil]
    | literal hkey => exact valueOf_of_not_arrayKey hkey
  · rintro rfl
    by_cases hkey : ArrayKey indicator (String.ofList key)
    · unfold valueOf arrayOf
      rw [if_pos (isArrayKey_iff.mpr hkey)]
      refine .array hkey List.takeWhile_append_dropWhile.symm ?_ ?_
      · exact fun line hline => isArrayLine_iff.mp (List.mem_takeWhile_imp hline)
      · intro line hline
        have hnot := List.head?_dropWhile_not isArrayLine following
        rw [Option.mem_def.mp hline] at hnot
        exact mt isArrayLine_iff.mpr (Bool.not_eq_true _ ▸ hnot)
    · rw [valueOf_of_not_arrayKey hkey]
      exact .literal hkey

/-- The entry of a field. -/
def EntryOf (indicator : String) (following : List String) (field : List Char × List Char)
    (entry : String × Value) : Prop :=
  entry.1 = String.ofList field.1 ∧
    ValueOf indicator following (String.ofList field.1) (String.ofList field.2) entry.2

theorem entryOf_iff {field : List Char × List Char} {entry : String × Value} :
    EntryOf indicator following field entry ↔
      (String.ofList field.1, valueOf indicator following field.1 field.2) = entry := by
  unfold EntryOf
  rw [valueOf_iff, Prod.ext_iff]
  exact and_congr_left' eq_comm

/-- What a payload means: the text is parted at its commas, each piece is a field or blank, and the entries
of the fields are collected. -/
def Means (indicator : String) (following : List String) (payload : String) (decoded : Payload) : Prop :=
  ∃ pieces fields entries, Parted payload.toList pieces ∧ List.Forall₂ FieldOf pieces fields ∧
    List.Forall₂ (EntryOf indicator following) (fields.filter (· ≠ ([], []))) entries ∧
      Entries.Collects entries decoded

/-- Elements in a relation that is a function are those of the list under it. -/
theorem forall₂_iff_map_eq {α β : Type} {R : α → β → Prop} {f : α → β} (h : ∀ a b, R a b ↔ f a = b)
    {as : List α} {bs : List β} : List.Forall₂ R as bs ↔ as.map f = bs := by
  have hR : R = fun a b => f a = b := funext₂ fun a b => propext (h a b)
  rw [hR, ← List.forall₂_map_left_iff (R := Eq), List.forall₂_eq_eq_eq]

theorem decode_eq_iff {decoded : Payload} :
    decode indicator following payload = decoded ↔ Means indicator following payload decoded := by
  have hfields {pieces : List (List Char)} {fields : List (List Char × List Char)} :
      List.Forall₂ FieldOf pieces fields ↔ pieces.map splitField = fields :=
    forall₂_iff_map_eq @fieldOf_iff
  have hentries {fields : List (List Char × List Char)} {entries : List (String × Value)} :
      List.Forall₂ (EntryOf indicator following) fields entries ↔
        fields.map (fun field => (String.ofList field.1, valueOf indicator following field.1 field.2)) =
          entries :=
    forall₂_iff_map_eq (@entryOf_iff indicator following)
  unfold Means
  simp only [parted_iff, hfields, hentries, ← Entries.putAll_eq_iff]
  constructor
  · intro h
    exact ⟨_, _, _, rfl, rfl, rfl, h⟩
  · rintro ⟨pieces, fields, entries, rfl, rfl, rfl, h⟩
    exact h

/-! ## Payloads with a comma between them -/

theorem fields_append (payload more : String) :
    fields (payload ++ "," ++ more) = fields payload ++ fields more := by
  have htext : (payload ++ "," ++ more).toList = payload.toList ++ ',' :: more.toList := by simp
  unfold fields
  rw [htext, List.splitOn_append_cons_self, List.map_append, List.filter_append]

/-- The fields behind a comma are set after those before it. -/
theorem decode_append (indicator : String) (following : List String) (payload more : String) :
    decode indicator following (payload ++ "," ++ more) =
      (decode indicator following payload).putAll (decode indicator following more) := by
  unfold decode
  rw [fields_append, List.map_append, Entries.putAll_append, Entries.putAll_putAll]

end Payload

/-! ## Fields of which no key is there twice -/

namespace Builder

variable {s : State}

theorem State.mem_keys_set {number : Nat} {key other : String} {slot : Slot}
    (h : other ∈ ((s.set number key slot).entries number).keys) :
    other = key ∨ other ∈ (s.entries number).keys := by
  by_cases hnumber : number < s.dicts.size
  · rw [s.entries_set hnumber, if_pos rfl, Entries.keys_put] at h
    split at h
    · exact .inr h
    · exact (List.mem_append.mp h).symm.imp_left List.mem_singleton.mp
  · rw [entries_set_of_size_le (not_lt.mp hnumber)] at h
    exact .inr h

/-- Setting fields of which no key is there twice finds no key but one that was there before. -/
theorem run_sets_of_nodup (line : Nat) {fields : Payload} (hnodup : fields.keys.Nodup) (s : State) :
    (∃ t, run line (Move.sets fields) s = .reached t) ∨
      ∃ key ∈ fields.keys, key ∈ (s.entries s.current).keys ∧
        ∃ last, run line (Move.sets fields) s = .refused (.duplicateKey line key s.path) last := by
  induction fields generalizing s with
  | nil => exact .inl ⟨s, rfl⟩
  | cons field rest ih =>
      obtain ⟨key, value⟩ := field
      obtain ⟨hkey, hrest⟩ := List.nodup_cons.mp hnodup
      cases hheld : (s.entries s.current).value? key with
      | some slot =>
          have hthere : key ∈ (s.entries s.current).keys := by
            rw [← Entries.value?_isSome_iff, hheld, Option.isSome_some]
          exact .inr ⟨key, List.mem_cons_self, hthere, s, by simp [Move.sets, run, Move.apply, hheld]⟩
      | none =>
          have hrun : run line (Move.sets ((key, value) :: rest)) s =
              run line (Move.sets rest) (s.set s.current key (.value value)) := by
            simp [Move.sets, run, Move.apply, hheld]
          rw [hrun]
          rcases ih hrest (s.set s.current key (.value value)) with
            hreached | ⟨other, hmem, hthere, hrefused⟩
          · exact .inl hreached
          · -- The key of the first field is none of the others, so it is not in their way.
            have hne : other ≠ key := fun heq => hkey (heq ▸ hmem)
            have hbefore := (State.mem_keys_set hthere).resolve_left hne
            exact .inr ⟨other, List.mem_cons_of_mem _ hmem, hbefore, hrefused⟩

end Builder

namespace Payload

open Builder

/-- A payload is decoded to what it means. So the fields behind a comma are set after those before it, each in
its place, and if setting the fields of a record is refused then at a key that was there before the record:
a key that occurs again in the payload is in no field's way. -/
theorem decode_meaning (indicator : String) (following : List String) (payload : String) :
    (∀ decoded : Payload,
        decode indicator following payload = decoded ↔ Means indicator following payload decoded) ∧
      (∀ more : String, decode indicator following (payload ++ "," ++ more) =
        (decode indicator following payload).putAll (decode indicator following more)) ∧
      ∀ (line : Nat) (s : State),
        (∃ t, run line (Move.sets (decode indicator following payload)) s = .reached t) ∨
          ∃ key ∈ (decode indicator following payload).keys, key ∈ (s.entries s.current).keys ∧
            ∃ last, run line (Move.sets (decode indicator following payload)) s =
              .refused (.duplicateKey line key s.path) last :=
  ⟨fun _ => decode_eq_iff, decode_append indicator following payload,
    fun line s => run_sets_of_nodup line (Entries.nodup_keys_collected _) s⟩

example :
    decode "(:)" ["1", "2 ", " ", "3"] "a = 1,, y(:) = 7, = , a=b=2,c,a = x" =
      [("a", .text "x"), ("y(:)", .array [.integer 1, .integer 2]), ("c", .text "")] := by
  decide +kernel

end Payload

end SolverLog
