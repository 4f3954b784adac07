import Mathlib.Data.List.Forall2
import SolverLog.Proofs.Literals

/-!
# The grammar of literals

A literal is an integer if it is written as one of 64 bits, else a number if it is written as one, and
else a text. `IntegerLiteral` and `NumberLiteral` say what is written so.

* `integer?_iff`, `Binary64.exists_read?_iff` — these texts, and no others, are read as integers and as
  numbers.
* `Value.ofLiteral_classified` — what every literal is read as. An integer of more than 64 bits is read
  as the number nearest to it.
* `Value.ofLiteral_display_ofLiteral` — a literal that is read and displayed is read as the same value.
-/

namespace SolverLog

namespace Number

/-! ## Signs -/

/-- A sign, or none. The flag says whether it is a minus sign. -/
inductive SignText : Bool → List Char → Prop where
  | none : SignText false []
  | plus : SignText false ['+']
  | minus : SignText true ['-']

/-- The text does not start with a sign. -/
def Unsigned (text : List Char) : Prop :=
  ∀ c ∈ text.head?, c ≠ '-' ∧ c ≠ '+'

variable {negative : Bool} {sign text rest : List Char}

/-- A sign is taken off a text that does not go on with another one. -/
theorem SignText.takeSign_append (h : SignText negative sign) (hrest : Unsigned rest) :
    takeSign (sign ++ rest) = (negative, rest) := by
  cases h with
  | none =>
      rw [List.nil_append]
      unfold takeSign
      split
      · exact absurd rfl (hrest '-' rfl).1
      · exact absurd rfl (hrest '+' rfl).2
      · rfl
  | plus => rfl
  | minus => rfl

theorem ne_sign_of_isDigit {c : Char} (h : c.isDigit) : c ≠ '-' ∧ c ≠ '+' := by
  constructor <;> rintro rfl <;> exact absurd h (by decide)

theorem SignText.takeSign_append_digits (h : SignText negative sign) {digits : List Char}
    (hdigits : ∀ c ∈ digits, c.isDigit) : takeSign (sign ++ digits) = (negative, digits) :=
  h.takeSign_append fun c hc => ne_sign_of_isDigit (hdigits c (List.mem_of_mem_head? hc))

/-- What is taken off the front of a text is a sign, or nothing. -/
theorem exists_signText (text : List Char) :
    ∃ sign, SignText (takeSign text).1 sign ∧ text = sign ++ (takeSign text).2 := by
  rcases takeSign_cases text with ⟨rest, rfl, hsign⟩ | ⟨rest, rfl, hsign⟩ | hsign <;> rw [hsign]
  · exact ⟨['-'], .minus, rfl⟩
  · exact ⟨['+'], .plus, rfl⟩
  · exact ⟨[], .none, rfl⟩

/-! ## Integers -/

/-- An optional sign and at least one digit, and the integer that these denote, whatever its size. -/
inductive IntegerLiteral : List Char → Int → Prop where
  | intro {negative : Bool} {sign digits : List Char} (hsign : SignText negative sign)
      (hne : digits ≠ []) (hdigits : ∀ c ∈ digits, c.isDigit) :
      IntegerLiteral (sign ++ digits) (signedValue negative (Nat.ofDigitChars 10 digits 0))

/-- No text is written for two integers. -/
theorem IntegerLiteral.unique {value other : Int} (h : IntegerLiteral text value)
    (h' : IntegerLiteral text other) : value = other := by
  have hvalue {value : Int} (h : IntegerLiteral text value) :
      value = signedValue (takeSign text).1 (Nat.ofDigitChars 10 (takeSign text).2 0) := by
    obtain ⟨hsign, hne, hdigits⟩ := h
    rw [hsign.takeSign_append_digits hdigits]
  rw [hvalue h, hvalue h']

/-- An integer is read if it is written as one and fits in 64 bits. -/
theorem integer?_iff {value : Int} :
    integer? text = some value ↔ IntegerLiteral text value ∧ FitsInteger value := by
  rw [integer?_eq_some_iff]
  constructor
  · rintro ⟨hne, hdigits, rfl, hfits⟩
    obtain ⟨sign, hsign, htext⟩ := exists_signText text
    have hliteral := IntegerLiteral.intro hsign hne hdigits
    rw [← htext] at hliteral
    exact ⟨hliteral, hfits⟩
  · rintro ⟨⟨hsign, hne, hdigits⟩, hfits⟩
    rw [hsign.takeSign_append_digits hdigits]
    exact ⟨hne, hdigits, rfl, hfits⟩

/-! ## Words -/

/-- The word, each of its letters in either case. -/
def InAnyCase (word : String) (text : List Char) : Prop :=
  List.Forall₂ (fun c letter => c = letter ∨ c = letter.toUpper) text word.toList

/-- The letters that have a small letter as theirs: itself and its capital. -/
theorem toLower_eq_iff {c letter : Char} (h : letter.isLower) :
    c.toLower = letter ↔ c = letter ∨ c = letter.toUpper := by
  have hrange : 'a'.val ≤ letter.val ∧ letter.val ≤ 'z'.val :=
    (Bool.and_eq_true_iff.mp h).imp of_decide_eq_true of_decide_eq_true
  simp only [UInt32.le_iff_toNat_le] at hrange
  have hsmall : 'a'.val.toNat = 97 ∧ 'z'.val.toNat = 122 := ⟨rfl, rfl⟩
  have hcapital : 'A'.val.toNat = 65 ∧ 'Z'.val.toNat = 90 := ⟨rfl, rfl⟩
  have hdown : ('a'.val - 'A'.val).toNat = 32 := rfl
  have hup : ('A'.val - 'a'.val).toNat = 2 ^ 32 - 32 := rfl
  have hupper : letter.toUpper.val.toNat = letter.val.toNat - 32 := by
    unfold Char.toUpper
    rw [dif_pos (by simpa only [UInt32.le_iff_toNat_le] using hrange), UInt32.toNat_add, hup]
    omega
  simp only [Char.ext_iff, ← UInt32.toNat_inj, hupper]
  unfold Char.toLower
  split
  · next hletter =>
      simp only [ge_iff_le, UInt32.le_iff_toNat_le] at hletter
      rw [UInt32.toNat_add, hdown]
      omega
  · next hletter =>
      simp only [ge_iff_le, UInt32.le_iff_toNat_le] at hletter
      omega

/-- In any case, a text is a word if it is so in small letters. -/
theorem inAnyCase_iff {word : String} (h : ∀ letter ∈ word.toList, letter.isLower) :
    InAnyCase word text ↔ text.map Char.toLower = word.toList := by
  unfold InAnyCase
  generalize word.toList = letters at h
  induction text generalizing letters with
  | nil => cases letters <;> simp
  | cons c rest ih =>
      cases letters with
      | nil => simp
      | cons letter letters =>
          rw [List.forall_mem_cons] at h
          rw [List.forall₂_cons, List.map_cons, List.cons.injEq, toLower_eq_iff h.1, ih letters h.2]

/-- The words that are numbers. -/
def numberWords : List String := ["inf", "infinity", "nan"]

theorem isLower_of_mem_numberWords :
    ∀ word ∈ numberWords, ∀ letter ∈ word.toList, letter.isLower := by
  have hall : (numberWords.all fun word => word.toList.all Char.isLower) = true := by decide
  intro word hword
  exact List.all_eq_true.mp (List.all_eq_true.mp hall word hword)

/-! ## Numbers -/

/-- Digits with at most one point among, before or after them, at least one digit in all. -/
inductive Mantissa : List Char → Prop where
  | whole {digits : List Char} (hne : digits ≠ []) (hdigits : ∀ c ∈ digits, c.isDigit) :
      Mantissa digits
  | point {whole fraction : List Char} (hne : ¬(whole = [] ∧ fraction = []))
      (hwhole : ∀ c ∈ whole, c.isDigit) (hfraction : ∀ c ∈ fraction, c.isDigit) :
      Mantissa (whole ++ '.' :: fraction)

/-- The letter `e` in either case, an optional sign and at least one digit; or nothing. -/
inductive Exponent : List Char → Prop where
  | none : Exponent []
  | marked {mark : Char} {negative : Bool} {sign digits : List Char} (hmark : mark = 'e' ∨ mark = 'E')
      (hsign : SignText negative sign) (hne : digits ≠ []) (hdigits : ∀ c ∈ digits, c.isDigit) :
      Exponent (mark :: (sign ++ digits))

/-- An optional sign and a word that is a number, or a mantissa and its exponent. -/
inductive NumberLiteral : List Char → Prop where
  | word {negative : Bool} {sign text : List Char} {word : String} (hsign : SignText negative sign)
      (hword : word ∈ numberWords) (htext : InAnyCase word text) : NumberLiteral (sign ++ text)
  | decimal {negative : Bool} {sign mantissa exponent : List Char} (hsign : SignText negative sign)
      (hmantissa : Mantissa mantissa) (hexponent : Exponent exponent) :
      NumberLiteral (sign ++ (mantissa ++ exponent))

theorem Decimal.exists_exponent?_iff :
    (∃ exponent, Decimal.exponent? text = some exponent) ↔ Exponent text := by
  constructor
  · rintro ⟨exponent, h⟩
    cases text with
    | nil => exact .none
    | cons mark rest =>
        unfold exponent? at h
        rw [Option.ite_none_right_eq_some] at h
        obtain ⟨hmark, hvalue⟩ := h
        obtain ⟨value, hsize, -⟩ := Option.map_eq_some_iff.mp hvalue
        obtain ⟨size, hdigits, -⟩ := Option.bind_eq_some_iff.mp hsize
        obtain ⟨hne, hdigits, -⟩ := natural?_eq_some_iff.mp hdigits
        obtain ⟨sign, hsign, hrest⟩ := exists_signText rest
        rw [hrest]
        exact .marked hmark hsign hne hdigits
  · rintro (_ | ⟨hmark, hsign, hne, hdigits⟩)
    · exact ⟨0, rfl⟩
    · have htake := hsign.takeSign_append_digits hdigits
      have hread := natural?_eq_some_iff.mpr ⟨hne, hdigits, rfl⟩
      simp only [exponent?, if_pos hmark, htake, hread]
      exact ⟨_, rfl⟩

/-- An exponent does not go on as a mantissa does. -/
theorem Exponent.head? (h : Exponent text) : ∀ c ∈ text.head?, c.isDigit = false ∧ c ≠ '.' := by
  cases h with
  | none => exact fun c hc => nomatch hc
  | marked hmark =>
      rintro c ⟨⟩
      rcases hmark with rfl | rfl <;> decide

theorem Mantissa.mem (h : Mantissa text) : ∀ c ∈ text, c.isDigit ∨ c = '.' := by
  intro c hc
  cases h with
  | whole hne hdigits => exact .inl (hdigits c hc)
  | point hne hwhole hfraction =>
      rcases List.mem_append.mp hc with hc | hc
      · exact .inl (hwhole c hc)
      · exact (List.mem_cons.mp hc).symm.imp_left (hfraction c)

theorem Mantissa.ne_nil (h : Mantissa text) : text ≠ [] := by
  cases h with
  | whole hne => exact hne
  | point => simp

/-- The digits before a fraction are followed by a point, or there is no fraction. -/
theorem Decimal.takeFraction_cases (text : List Char) :
    (∃ rest, text = '.' :: rest ∧ takeFraction text =
        (rest.takeWhile Char.isDigit, rest.dropWhile Char.isDigit)) ∨
      takeFraction text = ([], text) := by
  unfold takeFraction
  split
  · exact .inl ⟨_, rfl, List.span_eq_takeWhile_dropWhile _ _⟩
  · exact .inr rfl

/-- A decimal number is a mantissa and its exponent. -/
theorem Decimal.exists_read?_iff :
    (∃ decimal, Decimal.read? text = some decimal) ↔
      ∃ mantissa exponent, text = mantissa ++ exponent ∧ Mantissa mantissa ∧ Exponent exponent := by
  constructor
  · rintro ⟨decimal, h⟩
    have hwhole (c : Char) (hc : c ∈ text.takeWhile Char.isDigit) : c.isDigit := List.mem_takeWhile_imp hc
    have htext : text.takeWhile Char.isDigit ++ text.dropWhile Char.isDigit = text :=
      List.takeWhile_append_dropWhile
    unfold read? at h
    simp only [List.span_eq_takeWhile_dropWhile] at h
    generalize text.takeWhile Char.isDigit = whole at *
    generalize text.dropWhile Char.isDigit = rest at *
    rw [Option.ite_none_left_eq_some] at h
    obtain ⟨hne, hexponent⟩ := h
    obtain ⟨exponent, hexponent, -⟩ := Option.map_eq_some_iff.mp hexponent
    have hexponent := exists_exponent?_iff.mp ⟨exponent, hexponent⟩
    rw [← htext]
    rcases takeFraction_cases rest with ⟨digits, rfl, hfraction⟩ | hfraction <;>
      rw [hfraction] at hne hexponent
    · refine ⟨whole ++ '.' :: digits.takeWhile Char.isDigit, digits.dropWhile Char.isDigit, ?_, ?_,
        hexponent⟩
      · rw [List.append_assoc, List.cons_append, List.takeWhile_append_dropWhile]
      · exact .point hne hwhole fun c hc => List.mem_takeWhile_imp hc
    · exact ⟨whole, rest, rfl, .whole (fun hnone => hne ⟨hnone, rfl⟩) hwhole, hexponent⟩
  · rintro ⟨mantissa, exponent, rfl, hmantissa, hexponent⟩
    obtain ⟨value, hvalue⟩ := exists_exponent?_iff.mpr hexponent
    cases hmantissa with
    | whole hne hdigits => exact ⟨_, read?_noPoint hdigits hne hexponent.head? hvalue⟩
    | point hne hwhole hfraction =>
        have hread :=
          read?_point hwhole hne hfraction (fun c hc => (hexponent.head? c hc).1) hvalue
        rw [List.append_assoc, List.cons_append]
        exact ⟨_, hread⟩

/-- A number without its sign is a word, or a mantissa and its exponent. -/
theorem Binary64.exists_readUnsigned?_iff (negative : Bool) :
    (∃ number, readUnsigned? negative text = some number) ↔
      (∃ word ∈ numberWords, InAnyCase word text) ∨
        ∃ mantissa exponent, text = mantissa ++ exponent ∧ Mantissa mantissa ∧ Exponent exponent := by
  have hword : (∃ word ∈ numberWords, InAnyCase word text) ↔
      String.ofList (text.map Char.toLower) ∈ numberWords := by
    constructor
    · rintro ⟨word, hmem, htext⟩
      rw [inAnyCase_iff (isLower_of_mem_numberWords word hmem)] at htext
      rwa [htext, String.ofList_toList]
    · intro hmem
      refine ⟨_, hmem, ?_⟩
      rw [inAnyCase_iff (isLower_of_mem_numberWords _ hmem), String.toList_ofList]
  rw [hword, ← Decimal.exists_read?_iff]
  unfold readUnsigned?
  dsimp only
  generalize String.ofList (text.map Char.toLower) = word
  by_cases hmem : word ∈ numberWords
  · refine iff_of_true ?_ (.inl hmem)
    simp only [numberWords, List.mem_cons, List.not_mem_nil, or_false] at hmem
    rcases hmem with rfl | rfl | rfl <;> exact ⟨_, rfl⟩
  · have hnone : word ≠ "nan" ∧ ¬(word = "inf" ∨ word = "infinity") := by
      simp only [numberWords, List.mem_cons, List.not_mem_nil, or_false] at hmem
      tauto
    rw [if_neg hnone.1, if_neg hnone.2]
    simp [hmem, Option.map_eq_some_iff]

theorem InAnyCase.unsigned {word : String} (hword : word ∈ numberWords) (h : InAnyCase word text) :
    Unsigned text := by
  have hlower := isLower_of_mem_numberWords word hword
  rw [inAnyCase_iff hlower] at h
  intro c hc
  have hletter := hlower c.toLower (h ▸ List.mem_map_of_mem (List.mem_of_mem_head? hc))
  constructor <;> rintro rfl <;> exact absurd hletter (by decide)

theorem Mantissa.unsigned (h : Mantissa text) (rest : List Char) : Unsigned (text ++ rest) := by
  intro c hc
  rw [List.head?_append_of_ne_nil _ h.ne_nil] at hc
  rcases h.mem c (List.mem_of_mem_head? hc) with hdigit | rfl
  · exact ne_sign_of_isDigit hdigit
  · decide

/-- A number is read if it is written as one. -/
theorem Binary64.exists_read?_iff : (∃ number, read? text = some number) ↔ NumberLiteral text := by
  constructor
  · rintro ⟨number, h⟩
    obtain ⟨sign, hsign, htext⟩ := exists_signText text
    have hread : ∃ number, readUnsigned? (takeSign text).1 (takeSign text).2 = some number := ⟨number, h⟩
    rw [htext]
    rcases (exists_readUnsigned?_iff _).mp hread with
      ⟨word, hword, hcase⟩ | ⟨mantissa, exponent, hparts, hmantissa, hexponent⟩
    · exact .word hsign hword hcase
    · rw [hparts]
      exact .decimal hsign hmantissa hexponent
  · rintro (⟨hsign, hword, hcase⟩ | ⟨hsign, hmantissa, hexponent⟩) <;> unfold read?
    · rw [hsign.takeSign_append (hcase.unsigned hword)]
      exact (exists_readUnsigned?_iff _).mpr (.inl ⟨_, hword, hcase⟩)
    · rw [hsign.takeSign_append (hmantissa.unsigned _)]
      exact (exists_readUnsigned?_iff _).mpr (.inr ⟨_, _, rfl, hmantissa, hexponent⟩)

/-- A decimal number without an exponent is rounded as a whole number. -/
theorem Magnitude.ofDecimal?_zero_right (digits : Nat) : ofDecimal? digits 0 = ofRatio? digits 1 := by
  rw [ofDecimal?_eq, nearest?, if_pos le_rfl]
  exact congrArg (ofRatio? · 1) (Nat.mul_one digits)

/-- An integer is read as the number nearest to it, unless it is zero, which has two numbers. -/
theorem IntegerLiteral.read? {value : Int} (h : IntegerLiteral text value) (hzero : value ≠ 0) :
    Binary64.read? text = some (Binary64.ofInteger value) := by
  obtain @⟨negative, sign, digits, hsign, hne, hdigits⟩ := h
  have htake := hsign.takeSign_append_digits hdigits
  obtain ⟨first, rest, rfl⟩ := List.exists_cons_of_ne_nil hne
  have hfirst : first.isDigit := hdigits first List.mem_cons_self
  have hnan := ofList_ne_word hfirst rest "nan" (by decide)
  have hinf := ofList_ne_word hfirst rest "inf" (by decide)
  have hinfinity := ofList_ne_word hfirst rest "infinity" (by decide)
  have hdecimal : Decimal.read? (first :: rest) = some ⟨digitsValue (first :: rest), 0⟩ := by
    have hexponent : Decimal.exponent? [] = some 0 := rfl
    have hread := Decimal.read?_noPoint hdigits hne (by simp) hexponent
    rwa [List.append_nil] at hread
  unfold Binary64.read? Binary64.readUnsigned?
  simp only [htake, hnan, hinf, hinfinity, or_self, if_false, hdecimal, Option.map_some,
    Magnitude.ofDecimal?_zero_right, digitsValue_eq]
  generalize Nat.ofDigitChars 10 (first :: rest) 0 = size at hzero ⊢
  -- Of a number that is not zero, the sign is that of the integer.
  have hnegative : decide (signedValue negative size < 0) = negative := by
    cases negative with
    | false => simp [signedValue]
    | true => simpa [signedValue, Nat.pos_iff_ne_zero] using hzero
  have hsize : (signedValue negative size).natAbs = size := by
    cases negative <;> simp [signedValue]
  rw [Binary64.ofInteger, hnegative, hsize]

end Number

namespace Value

open Number

/-! ## Literals -/

variable {literal : String}

theorem ofLiteral_eq_integer_iff {value : Int} :
    ofLiteral literal = .integer value ↔ Number.integer? (Text.trim literal.toList) = some value := by
  rcases ofLiteral_cases literal with ⟨_, hinteger, heq⟩ | ⟨_, hinteger, -, heq⟩ | ⟨hinteger, -, heq⟩ <;>
    simp [hinteger, heq]

theorem ofLiteral_eq_real_iff {number : Binary64} :
    ofLiteral literal = .real number ↔ Number.integer? (Text.trim literal.toList) = none ∧
      Binary64.read? (Text.trim literal.toList) = some number := by
  rcases ofLiteral_cases literal with
    ⟨_, hinteger, heq⟩ | ⟨_, hinteger, hreal, heq⟩ | ⟨hinteger, hreal, heq⟩
  · simp [hinteger, heq]
  · simp [hinteger, hreal, heq]
  · simp [hinteger, hreal, heq]

theorem ofLiteral_eq_text_iff {words : String} :
    ofLiteral literal = .text words ↔ Number.integer? (Text.trim literal.toList) = none ∧
      Binary64.read? (Text.trim literal.toList) = none ∧ words.toList = Text.trim literal.toList := by
  have hwords : String.ofList (Text.trim literal.toList) = words ↔
      words.toList = Text.trim literal.toList := by
    rw [← String.toList_inj, String.toList_ofList, eq_comm]
  rcases ofLiteral_cases literal with
    ⟨_, hinteger, heq⟩ | ⟨_, hinteger, hreal, heq⟩ | ⟨hinteger, hreal, heq⟩
  · simp [hinteger, heq]
  · simp [hinteger, hreal, heq]
  · simp [hinteger, hreal, heq, hwords]

/-- An integer of 64 bits is an integer, and of what is written otherwise, a number is a number and all
else is its own text, without the blanks around it. An integer of more than 64 bits, however long, is
the number nearest to it. -/
theorem ofLiteral_classified (literal : String) :
    (∀ value : Int, ofLiteral literal = .integer value ↔
        IntegerLiteral (Text.trim literal.toList) value ∧ FitsInteger value) ∧
      ((∃ number : Binary64, ofLiteral literal = .real number) ↔
        (¬∃ value : Int, IntegerLiteral (Text.trim literal.toList) value ∧ FitsInteger value) ∧
          NumberLiteral (Text.trim literal.toList)) ∧
      (∀ words : String, ofLiteral literal = .text words ↔
        (¬∃ value : Int, IntegerLiteral (Text.trim literal.toList) value ∧ FitsInteger value) ∧
          ¬NumberLiteral (Text.trim literal.toList) ∧ words.toList = Text.trim literal.toList) ∧
      ∀ value : Int, IntegerLiteral (Text.trim literal.toList) value → ¬FitsInteger value →
        ofLiteral literal = .real (Binary64.ofInteger value) := by
  simp only [ofLiteral_eq_integer_iff, ofLiteral_eq_real_iff, ofLiteral_eq_text_iff]
  generalize Text.trim literal.toList = text
  have hnone : Number.integer? text = none ↔
      ¬∃ value : Int, IntegerLiteral text value ∧ FitsInteger value := by
    simp only [← integer?_iff, ← Option.isSome_iff_exists, Option.not_isSome_iff_eq_none]
  have hunread : Binary64.read? text = none ↔ ¬NumberLiteral text := by
    rw [← Binary64.exists_read?_iff, ← Option.isSome_iff_exists, Option.not_isSome_iff_eq_none]
  refine ⟨fun value => integer?_iff, ?_, ?_, ?_⟩
  · rw [exists_and_left, hnone, Binary64.exists_read?_iff]
  · intro words
    rw [hnone, hunread]
  · intro value hliteral hlarge
    have hzero : value ≠ 0 := by
      rintro rfl
      exact hlarge (by decide)
    refine ⟨hnone.mpr ?_, hliteral.read? hzero⟩
    rintro ⟨other, hother, hfits⟩
    exact hlarge (hliteral.unique hother ▸ hfits)

/-- An integer that is one too small for 64 bits, with zeros in front and blanks around it. -/
def pastLeast : String := "\t-0009223372036854775809\r\n"

theorem ofLiteral_classified_past :
    IntegerLiteral (Text.trim pastLeast.toList) (leastInteger - 1) ∧ ¬FitsInteger (leastInteger - 1) ∧
      ofLiteral pastLeast = .real (Binary64.ofInteger (leastInteger - 1)) := by
  have hliteral : IntegerLiteral (Text.trim pastLeast.toList) (leastInteger - 1) :=
    @IntegerLiteral.intro true ['-'] "0009223372036854775809".toList .minus (by decide)
      (List.all_eq_true.mp (by decide))
  have hlarge : ¬FitsInteger (leastInteger - 1) := by decide
  exact ⟨hliteral, hlarge, (ofLiteral_classified pastLeast).2.2.2 _ hliteral hlarge⟩

/-- What a literal is read as is displayed as a literal of the same value. -/
theorem ofLiteral_display_ofLiteral (literal : String) :
    ofLiteral (ofLiteral literal).display = ofLiteral literal :=
  (isLiteral_ofLiteral literal).ofLiteral_display

end Value

end SolverLog
