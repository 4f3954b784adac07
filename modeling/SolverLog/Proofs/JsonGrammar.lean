import SolverLog.Proofs.JsonText
import SolverLog.Proofs.LiteralGrammar

/-!
# The grammar of JSON

`Json.Spells` says which texts spell a value, by the grammar of JSON: there may be space around every
value and every key, a numeral has no needless zeros, and a character of a string stands as it is or is
escaped in one of several ways. `Json` has no truth values, so they are left out.

Every text in which a value is rendered spells it, compact or indented (`Json.spells_render`). The
structure is by induction on the value; below it are numerals, whose first digit is no zero unless it
is the only one before the point (`Number.Style.isNumeral_finiteText`), and strings
(`Json.spellsString_quote`).
-/

namespace SolverLog

namespace Number

/-! ## Digits without needless zeros -/

/-- The first digit of a positive number is not zero. -/
theorem head?_toDigits_ne_zero {n : Nat} (h : 0 < n) : (Nat.toDigits 10 n).head? ≠ some '0' := by
  induction n using Nat.strong_induction_on with
  | _ n ih =>
      rcases Nat.lt_or_ge n 10 with hsmall | hlarge
      · rw [Nat.toDigits_of_lt_base hsmall]
        have hdigit : ∀ n < 10, 0 < n → [Nat.digitChar n].head? ≠ some '0' := by decide
        exact hdigit n hsmall h
      · rw [Nat.toDigits_of_base_le (by decide) hlarge,
          List.head?_append_of_ne_nil _ Nat.toDigits_ne_nil]
        exact ih (n / 10) (by omega) (by omega)

/-- A number that is scaled has no zero first, if there is a digit at all. -/
theorem Digits.head?_ofScaled {count : Nat} {scale : Int} (h : (ofScaled count scale).digits ≠ []) :
    (ofScaled count scale).digits.head? ≠ some '0' := by
  intro hzero
  unfold ofScaled at h hzero
  dsimp only at h hzero
  obtain ⟨size, hsize⟩ := eq_stripped_append_zeros (Nat.toDigits 10 count)
  rcases Nat.eq_zero_or_pos count with rfl | hpos
  · exact h (by decide)
  · apply head?_toDigits_ne_zero hpos
    rw [hsize, List.head?_append_of_ne_nil _ h]
    exact hzero

theorem Magnitude.exists_search (tie : Tie) (magnitude : Magnitude) (exact : Decimal) (dropped : Nat) :
    ∃ count scale, search tie magnitude exact dropped = Digits.ofScaled count scale := by
  induction dropped with
  | zero => exact ⟨_, _, rfl⟩
  | succ dropped ih =>
      unfold search
      split
      · exact ⟨_, _, rfl⟩
      · exact ih

/-- The digits of a magnitude start with a zero only if they are those of zero. -/
theorem Magnitude.shortest_of_head? {tie : Tie} {magnitude : Magnitude}
    (h : (magnitude.shortest tie).digits.head? = some '0') : magnitude.shortest tie = Digits.zero := by
  have hdenotes := magnitude.shortest_denotes tie
  unfold shortest at h hdenotes ⊢
  split
  · rfl
  · next hunits =>
      rw [if_neg hunits] at h hdenotes
      obtain ⟨count, scale, hsearch⟩ := exists_search tie magnitude magnitude.exact
        ((Nat.toDigits 10 magnitude.exact.digits).length - 1)
      -- There is a digit at all, since the digits that are selected are those of the magnitude.
      simp only [hsearch] at h hdenotes
      exact absurd h (Digits.head?_ofScaled hdenotes.nonempty)

end Number

namespace Json

open Number

/-! ## Numerals -/

/-- The digits before the point: no zero first, unless it is the only one. -/
structure IsWhole (digits : List Char) : Prop where
  ne_nil : digits ≠ []
  isDigit : ∀ c ∈ digits, c.isDigit
  head? : digits.head? = some '0' → digits = ['0']

/-- A point and at least one digit; or nothing. -/
inductive IsFraction : List Char → Prop where
  | none : IsFraction []
  | point {digits : List Char} (hne : digits ≠ []) (hdigits : ∀ c ∈ digits, c.isDigit) :
      IsFraction ('.' :: digits)

/-- A numeral. Unlike other literals it has no plus sign, and digits on both sides of a point. -/
inductive IsNumeral : List Char → Prop where
  | intro (negative : Bool) {whole fraction exponent : List Char} (hwhole : IsWhole whole)
      (hfraction : IsFraction fraction) (hexponent : Exponent exponent) :
      IsNumeral (Style.signed negative (whole ++ (fraction ++ exponent)))

theorem isWhole_singleton {c : Char} (h : c.isDigit) : IsWhole [c] := by
  refine ⟨List.cons_ne_nil c [], by simpa using h, ?_⟩
  intro hzero
  rw [Option.some.inj hzero]

theorem isNumeral_integerText (value : Int) : IsNumeral (integerText value).toList := by
  rw [toList_integerText]
  have hwhole : IsWhole (Nat.toDigits 10 value.natAbs) := by
    refine ⟨Nat.toDigits_ne_nil, isDigit_of_mem_toDigits, ?_⟩
    intro hzero
    rcases Nat.eq_zero_or_pos value.natAbs with hvalue | hpos
    · rw [hvalue]
      rfl
    · exact absurd hzero (head?_toDigits_ne_zero hpos)
  have hnumeral := IsNumeral.intro (decide (value < 0)) hwhole .none .none
  rwa [List.append_nil, List.append_nil] at hnumeral

/-- A minus sign in front of a text is a sign. -/
theorem exists_signed_eq (negative : Bool) (text : List Char) :
    ∃ sign, SignText negative sign ∧ Style.signed negative text = sign ++ text := by
  cases negative with
  | false => exact ⟨[], .none, rfl⟩
  | true => exact ⟨['-'], .minus, rfl⟩

/-- The text of an integer is written as that integer. -/
theorem integerLiteral_integerText (value : Int) :
    IntegerLiteral (integerText value).toList value := by
  rw [toList_integerText]
  obtain ⟨sign, hsign, hsigned⟩ := exists_signed_eq (value < 0) (Nat.toDigits 10 value.natAbs)
  have hliteral := IntegerLiteral.intro hsign (Nat.toDigits_ne_nil (n := value.natAbs) (b := 10))
    isDigit_of_mem_toDigits
  rwa [Nat.ofDigitChars_ten_toDigits, signedValue_natAbs, ← hsigned] at hliteral

theorem exponent_exponentPart (plus : Bool) (exponent : Int) :
    Exponent (Decimal.exponentPart plus exponent) :=
  Decimal.exists_exponent?_iff.mp ⟨exponent, Decimal.exponent?_exponentPart plus exponent⟩

end Json

namespace Number

open Json

variable {number : Digits} {magnitude : Magnitude}

/-- In a positional layout a single zero is before the point, or the first digits of the number. -/
theorem Digits.Denotes.isNumeral_positional (h : number.Denotes magnitude)
    (hzero : number.digits.head? = some '0' → number = .zero) (negative : Bool) :
    IsNumeral (Style.signed negative number.positional) := by
  have hpoint {whole fraction : List Char} (hwhole : IsWhole whole) (hne : fraction ≠ [])
      (hdigits : ∀ c ∈ fraction, c.isDigit) :
      IsNumeral (Style.signed negative (whole ++ '.' :: fraction)) := by
    have hnumeral := IsNumeral.intro negative hwhole (.point hne hdigits) .none
    rwa [List.append_nil] at hnumeral
  unfold positional
  split
  · -- The number is less than one: zeros and all its digits are behind the point.
    apply hpoint (isWhole_singleton (by decide))
    · simp [h.nonempty]
    · intro c hc
      rcases List.mem_append.mp hc with hc | hc
      · exact isDigit_of_mem_zeros hc
      · exact h.isDigit c hc
  · apply hpoint
    · refine ⟨by simp [h.nonempty], ?_, ?_⟩
      · intro c hc
        rcases List.mem_append.mp hc with hc | hc
        · exact h.isDigit c (List.mem_of_mem_take hc)
        · exact isDigit_of_mem_zeros hc
      · -- The digits before the point start as those of the number do.
        intro hfirst
        have hnumber : number = .zero := by
          apply hzero
          rw [List.head?_append_of_ne_nil _ (by simp [h.nonempty]), List.head?_take] at hfirst
          simpa using hfirst
        rw [hnumber]
        rfl
    · split
      · exact List.cons_ne_nil _ _
      · assumption
    · intro c hc
      split at hc
      · have hzeros : c ∈ zeros 1 := hc
        exact isDigit_of_mem_zeros hzeros
      · exact h.isDigit c (List.mem_of_mem_drop hc)

/-- In a scientific layout a single digit is before the point. -/
theorem Digits.Denotes.isNumeral_scientific (h : number.Denotes magnitude) (plus negative : Bool) :
    IsNumeral (Style.signed negative (number.scientific plus)) := by
  obtain ⟨digits, exponent⟩ := number
  have hexponent := exponent_exponentPart plus exponent
  cases digits with
  | nil => exact absurd rfl h.nonempty
  | cons first others =>
      have hwhole : IsWhole [first] := isWhole_singleton (h.isDigit first List.mem_cons_self)
      cases others with
      | nil => exact .intro negative hwhole .none hexponent
      | cons second others =>
          rw [scientific_eq]
          refine .intro negative hwhole (.point (List.cons_ne_nil second others) ?_) hexponent
          intro c hc
          exact h.isDigit c (List.mem_cons_of_mem first hc)

/-- The text of a finite number is a numeral, in any style. -/
theorem Style.isNumeral_finiteText (style : Style) (negative : Bool) (magnitude : Magnitude) :
    IsNumeral (style.finiteText negative magnitude).toList := by
  have hdenotes := magnitude.shortest_denotes style.tie
  rw [finiteText, String.toList_ofList]
  unfold layout
  split
  · exact hdenotes.isNumeral_positional Magnitude.shortest_of_head? negative
  · exact hdenotes.isNumeral_scientific style.plus negative

end Number

namespace Json

/-! ## Strings -/

/-- The letters of the short escapes, each with the character for which it stands. -/
def shortEscapes : List (Char × Char) :=
  [('"', '"'), ('\\', '\\'), ('/', '/'), ('b', '\x08'), ('f', '\x0c'), ('n', '\n'), ('r', '\r'),
    ('t', '\t')]

/-- A code of 16 bits in four hexadecimal digits, their letters in either case. -/
structure IsCode (digits : List Char) (code : Nat) : Prop where
  length : digits.length = 4
  isHex : ∀ digit ∈ digits, digit.toLower ∈ "0123456789abcdef".toList
  value : digits.foldl (fun code digit => 16 * code + hexValue digit.toLower) 0 = code

/-- The text spells the character within a string. -/
inductive SpellsChar : List Char → Char → Prop where
  /-- A character stands as it is, unless it is a control character, a quote or a backslash. -/
  | plain {c : Char} (hcontrol : 0x20 ≤ c.toNat) (hquote : c ≠ '"') (hbackslash : c ≠ '\\') :
      SpellsChar [c] c
  | short {letter c : Char} (h : (letter, c) ∈ shortEscapes) : SpellsChar ['\\', letter] c
  | code {digits : List Char} {c : Char} (h : IsCode digits c.toNat) :
      SpellsChar ('\\' :: 'u' :: digits) c
  /-- A character of more than 16 bits in two codes. -/
  | pair {high low : List Char} {c : Char} {upper lower : Nat} (hhigh : IsCode high (0xd800 + upper))
      (hlow : IsCode low (0xdc00 + lower)) (hlower : lower < 0x400)
      (hvalue : c.toNat = 0x10000 + 0x400 * upper + lower) :
      SpellsChar ('\\' :: 'u' :: (high ++ '\\' :: 'u' :: low)) c

/-- The text spells the characters one after the other. -/
inductive SpellsChars : List Char → List Char → Prop where
  | nil : SpellsChars [] []
  | cons {text more : List Char} {c : Char} {rest : List Char} (h : SpellsChar text c)
      (hrest : SpellsChars more rest) : SpellsChars (text ++ more) (c :: rest)

/-- The text is a string in quotes. -/
inductive SpellsString : List Char → String → Prop where
  | quoted {text : List Char} {words : String} (h : SpellsChars text words.toList) :
      SpellsString ('"' :: text ++ ['"']) words

/-- The codes of control characters. -/
theorem isCode_control : ∀ code < 0x20,
    IsCode ['0', '0', Nat.digitChar (code / 16), Nat.digitChar (code % 16)] code := by
  have hdigits : ∀ code < 0x20,
      ((['0', '0', Nat.digitChar (code / 16), Nat.digitChar (code % 16)].all fun digit =>
          "0123456789abcdef".toList.contains digit.toLower) &&
        ['0', '0', Nat.digitChar (code / 16), Nat.digitChar (code % 16)].foldl
          (fun code digit => 16 * code + hexValue digit.toLower) 0 = code) = true := by
    decide +kernel
  intro code hcode
  obtain ⟨hhex, hvalue⟩ := Bool.and_eq_true_iff.mp (hdigits code hcode)
  refine ⟨rfl, ?_, of_decide_eq_true hvalue⟩
  intro digit hdigit
  exact List.contains_iff_mem.mp (List.all_eq_true.mp hhex digit hdigit)

theorem spellsChar_escape (c : Char) : SpellsChar (escape c) c := by
  unfold escape
  split
  · next h => rw [h]; exact .short (by decide)
  split
  · next h => rw [h]; exact .short (by decide)
  split
  · next h => rw [h]; exact .short (by decide)
  split
  · next h => rw [h]; exact .short (by decide)
  split
  · next h => rw [h]; exact .short (by decide)
  split
  · next h => rw [h]; exact .short (by decide)
  split
  · next h => rw [h]; exact .short (by decide)
  split
  · next hcontrol => exact .code (isCode_control c.toNat hcontrol)
  · next hquote hbackslash _ _ _ _ _ hcontrol => exact .plain (by omega) hquote hbackslash

theorem spellsChars_flatMap (words : List Char) : SpellsChars (words.flatMap escape) words := by
  induction words with
  | nil => exact .nil
  | cons c rest ih =>
      rw [List.flatMap_cons]
      exact .cons (spellsChar_escape c) ih

theorem spellsString_quote (words : String) : SpellsString (quote words).toList words := by
  rw [toList_quote]
  exact .quoted (spellsChars_flatMap words.toList)

/-! ## Values -/

/-- Space between the tokens of a text. -/
def IsSpace (text : List Char) : Prop :=
  ∀ c ∈ text, c = ' ' ∨ c = '\n' ∨ c = '\r' ∨ c = '\t'

/-- The text spells something, with space around it. -/
inductive Spaced {α : Type} (Spelled : List Char → α → Prop) : List Char → α → Prop where
  | intro {before text after : List Char} {item : α} (hbefore : IsSpace before)
      (h : Spelled text item) (hafter : IsSpace after) :
      Spaced Spelled (before ++ (text ++ after)) item

/-- The text spells things, at least one, with commas between them. -/
inductive Separated {α : Type} (Spelled : List Char → α → Prop) : List Char → List α → Prop where
  | last {text : List Char} {item : α} (h : Spelled text item) : Separated Spelled text [item]
  | more {text rest : List Char} {item : α} {items : List α} (h : Spelled text item)
      (hrest : Separated Spelled rest items) :
      Separated Spelled (text ++ ',' :: rest) (item :: items)

/-- The text spells a member: its key, a colon and its value. -/
inductive Paired (Spelled : List Char → Json → Prop) : List Char → String × Json → Prop where
  | intro {quoted text : List Char} {key : String} {value : Json}
      (hkey : Spaced SpellsString quoted key) (hvalue : Spaced Spelled text value) :
      Paired Spelled (quoted ++ ':' :: text) (key, value)

/-- The text spells the value. -/
inductive Spells : List Char → Json → Prop where
  | null : Spells "null".toList .null
  | integer {text : List Char} {value : Int} (hnumeral : IsNumeral text)
      (hvalue : Number.IntegerLiteral text value) : Spells text (.integer value)
  | number {text : List Char} {negative : Bool} {magnitude : Number.Magnitude}
      (hnumeral : IsNumeral text)
      (hvalue : Number.Binary64.read? text = some (.finite negative magnitude)) :
      Spells text (.number negative magnitude)
  | text {text : List Char} {words : String} (h : SpellsString text words) :
      Spells text (.text words)
  | noItems {space : List Char} (h : IsSpace space) : Spells ('[' :: space ++ [']']) (.list [])
  | items {text : List Char} {items : List Json} (h : Separated (Spaced Spells) text items) :
      Spells ('[' :: text ++ [']']) (.list items)
  | noMembers {space : List Char} (h : IsSpace space) :
      Spells ('\x7b' :: space ++ ['\x7d']) (.object [])
  | members {text : List Char} {members : List (String × Json)}
      (h : Separated (Paired Spells) text members) :
      Spells ('\x7b' :: text ++ ['\x7d']) (.object members)

/-! ## Rendered values -/

/-- The spacing is nothing but spaces and line feeds, and colons where they belong. -/
structure Spacing.IsBlank (spacing : Spacing) : Prop where
  lineBreak : ∀ depth, ∀ c ∈ (spacing.lineBreak depth).toList, c = ' ' ∨ c = '\n'
  colon : ∃ gap, spacing.colon.toList = ':' :: gap ∧ ∀ c ∈ gap, c = ' ' ∨ c = '\n'

theorem Spacing.isBlank_compact : compact.IsBlank where
  lineBreak := by simp
  colon := ⟨[], rfl, by simp⟩

theorem Spacing.isBlank_indented : indented.IsBlank where
  lineBreak := by
    intro depth c hc
    rw [indented, String.toList_ofList, List.mem_cons, List.mem_replicate] at hc
    rcases hc with rfl | ⟨-, rfl⟩
    · exact .inr rfl
    · exact .inl rfl
  colon := ⟨[' '], rfl, by simp⟩

theorem isSpace_of_blank {text : List Char} (h : ∀ c ∈ text, c = ' ' ∨ c = '\n') :
    IsSpace text := by
  intro c hc
  rcases h c hc with hspace | hfeed
  · exact .inl hspace
  · exact .inr (.inl hfeed)

theorem isSpace_nil : IsSpace [] := by
  intro c hc
  cases hc

/-- A key with space before it, and its value with space around it. -/
theorem Spacing.IsBlank.paired {spacing : Spacing} (h : spacing.IsBlank) (key : String) {value : Json}
    {before text after : List Char} (hbefore : IsSpace before) (hvalue : Spells text value)
    (hafter : IsSpace after) :
    Paired Spells (before ++ ((quote key).toList ++ (spacing.colon.toList ++ (text ++ after))))
      (key, value) := by
  obtain ⟨gap, hcolon, hgap⟩ := h.colon
  have hpaired := Paired.intro (.intro hbefore (spellsString_quote key) isSpace_nil)
    (.intro (isSpace_of_blank hgap) hvalue hafter)
  simpa [hcolon] using hpaired

mutual

/-- The pieces of a value spell it. -/
theorem spells_pieces {spacing : Spacing} (h : spacing.IsBlank) (depth : Nat) : (json : Json) →
    Spells ((json.pieces spacing depth).flatMap String.toList) json
  | null => by
    simpa [pieces] using Spells.null
  | integer value => by
    simpa [pieces] using
      Spells.integer (isNumeral_integerText value) (integerLiteral_integerText value)
  | number negative magnitude => by
    simpa [pieces] using Spells.number (numberStyle.isNumeral_finiteText negative magnitude)
      (numberStyle.read?_text (.finite negative magnitude))
  | text words => by
    simpa [pieces] using Spells.text (spellsString_quote words)
  | list [] => by
    simpa [pieces] using Spells.noItems isSpace_nil
  | list (item :: rest) => by
    have hbreak (depth : Nat) : IsSpace (spacing.lineBreak depth).toList :=
      isSpace_of_blank (h.lineBreak depth)
    have hitem := spells_pieces h (depth + 1) item
    have hitems := spells_itemPieces h (depth + 1) (hbreak (depth + 1)) hitem (hbreak depth) rest
    simpa [pieces] using Spells.items hitems
  | object [] => by
    simpa [pieces] using Spells.noMembers isSpace_nil
  | object ((key, value) :: rest) => by
    have hbreak (depth : Nat) : IsSpace (spacing.lineBreak depth).toList :=
      isSpace_of_blank (h.lineBreak depth)
    have hvalue := spells_pieces h (depth + 1) value
    have hmembers := spells_memberPieces h (depth + 1) key (hbreak (depth + 1)) hvalue (hbreak depth)
      rest
    simpa [pieces] using Spells.members hmembers

/-- A text of an item and the pieces of the items after it spell them all. -/
theorem spells_itemPieces {spacing : Spacing} (h : spacing.IsBlank) (depth : Nat) {item : Json}
    {before text after : List Char} (hbefore : IsSpace before) (hitem : Spells text item)
    (hafter : IsSpace after) : (items : List Json) →
    Separated (Spaced Spells)
      (before ++ (text ++ ((itemPieces spacing depth items).flatMap String.toList ++ after)))
      (item :: items)
  | [] => by
    simpa [itemPieces] using Separated.last (.intro hbefore hitem hafter)
  | next :: rest => by
    have hnext := spells_pieces h depth next
    have hrest := spells_itemPieces h depth (isSpace_of_blank (h.lineBreak depth)) hnext hafter rest
    simpa [itemPieces] using Separated.more (.intro hbefore hitem isSpace_nil) hrest

/-- A text of a member and the pieces of the members after it spell them all. -/
theorem spells_memberPieces {spacing : Spacing} (h : spacing.IsBlank) (depth : Nat) (key : String)
    {value : Json} {before text after : List Char} (hbefore : IsSpace before)
    (hvalue : Spells text value) (hafter : IsSpace after) : (members : List (String × Json)) →
    Separated (Paired Spells)
      (before ++ ((quote key).toList ++ (spacing.colon.toList ++
        (text ++ ((memberPieces spacing depth members).flatMap String.toList ++ after)))))
      ((key, value) :: members)
  | [] => by
    simpa [memberPieces] using Separated.last (h.paired key hbefore hvalue hafter)
  | (key', value') :: rest => by
    have hnext := spells_pieces h depth value'
    have hrest := spells_memberPieces h depth key' (isSpace_of_blank (h.lineBreak depth)) hnext hafter
      rest
    simpa [memberPieces] using Separated.more (h.paired key hbefore hvalue isSpace_nil) hrest

end

/-- A value is spelled by each text in which it is rendered. -/
theorem spells_render {spacing : Spacing} (h : spacing.IsBlank) (json : Json) :
    Spells (json.render spacing).toList json := by
  rw [render, String.toList_join]
  exact spells_pieces h 0 json

end Json

end SolverLog
