import Mathlib.Data.List.TakeDrop
import Mathlib.Data.List.TakeWhile
import SolverLog.Number.Style
import SolverLog.Proofs.Digits
import SolverLog.Proofs.Rounding

/-!
# Printed numbers read back

The text of a number, in whatever style, is read as that number (`Style.read?_text`), so no two
numbers share a text (`Style.text_injective`).

Both halves go through `Digits.Denotes`: the digits that are selected for a magnitude are rounded to
it (`Magnitude.shortest_denotes`), and every layout of digits is read as a decimal number that is
rounded as they are.
-/

namespace SolverLog.Number

/-! ## Runs of digits -/

theorem digitsValue_append (xs ys : List Char) :
    digitsValue (xs ++ ys) = digitsValue xs * 10 ^ ys.length + digitsValue ys := by
  simp only [digitsValue_eq]
  rw [Nat.ofDigitChars_append, Nat.ofDigitChars_eq_ofDigitChars_zero, Nat.mul_comm]

theorem digitsValue_zeros (count : Nat) : digitsValue (zeros count) = 0 := by
  rw [digitsValue_eq, zeros, Nat.ofDigitChars_replicate_zero, Nat.mul_zero]

theorem length_zeros (count : Nat) : (zeros count).length = count :=
  List.length_replicate

/-- Zeros before the digits do not count. -/
theorem digitsValue_zeros_append (count : Nat) (digits : List Char) :
    digitsValue (zeros count ++ digits) = digitsValue digits := by
  rw [digitsValue_append, digitsValue_zeros, Nat.zero_mul, Nat.zero_add]

/-- Zeros after the digits are factors of ten. -/
theorem digitsValue_append_zeros (digits : List Char) (count : Nat) :
    digitsValue (digits ++ zeros count) = digitsValue digits * 10 ^ count := by
  rw [digitsValue_append, digitsValue_zeros, length_zeros, Nat.add_zero]

theorem isDigit_of_mem_toDigits {n : Nat} : ∀ c ∈ Nat.toDigits 10 n, c.isDigit :=
  fun _ hc => Nat.isDigit_of_mem_toDigits (by decide) (by decide) hc

theorem natural?_toDigits (n : Nat) : natural? (Nat.toDigits 10 n) = some n := by
  have hall : (Nat.toDigits 10 n).all Char.isDigit := List.all_eq_true.mpr isDigit_of_mem_toDigits
  rw [natural?, if_pos ⟨Nat.toDigits_ne_nil, hall⟩, digitsValue_toDigits]

theorem head?_toDigits (n : Nat) : ∃ c ∈ (Nat.toDigits 10 n).head?, c.isDigit := by
  obtain ⟨c, rest, htext⟩ := List.exists_cons_of_ne_nil (Nat.toDigits_ne_nil (n := n) (b := 10))
  have hc : c.isDigit := isDigit_of_mem_toDigits (n := n) c (htext ▸ List.mem_cons_self)
  exact ⟨c, by rw [htext]; rfl, hc⟩

theorem isDigit_of_mem_zeros {count : Nat} {c : Char} (h : c ∈ zeros count) : c.isDigit := by
  rw [List.eq_of_mem_replicate h]
  decide

/-- A text is its digits without the zeros at their end, and those zeros. -/
theorem eq_stripped_append_zeros (digits : List Char) :
    ∃ count, digits = (digits.reverse.dropWhile (· = '0')).reverse ++ zeros count := by
  refine ⟨(digits.reverse.takeWhile (· = '0')).length, ?_⟩
  have hzeros : digits.reverse.takeWhile (· = '0') =
      zeros (digits.reverse.takeWhile (· = '0')).length :=
    List.eq_replicate_of_mem fun c hc => by simpa using List.mem_takeWhile_imp hc
  have hsplit := List.takeWhile_append_dropWhile (p := (· = '0')) (l := digits.reverse)
  rw [hzeros] at hsplit
  have hreverse := congrArg List.reverse hsplit
  rw [List.reverse_append, List.reverse_reverse, zeros, List.reverse_replicate] at hreverse
  exact hreverse.symm

/-! ## The digits of a magnitude -/

/-- The digits are digits of the magnitude: the number they stand for is rounded to it. -/
structure Digits.Denotes (number : Digits) (magnitude : Magnitude) : Prop where
  nonempty : number.digits ≠ []
  isDigit : ∀ c ∈ number.digits, c.isDigit
  rounded : Magnitude.ofDecimal? (digitsValue number.digits)
    (number.exponent - number.digits.length + 1) = some magnitude

namespace Magnitude

theorem eq_zero_of_units {magnitude : Magnitude} (h : magnitude.units = 0) : magnitude = zero := by
  cases magnitude
  cases h
  rfl

/-- A whole number that is rounded to a magnitude gives digits of it. -/
theorem ofScaled_denotes {magnitude : Magnitude} (hunits : magnitude.units ≠ 0) {count : Nat}
    {scale : Int} (h : ofDecimal? count scale = some magnitude) :
    (Digits.ofScaled count scale).Denotes magnitude := by
  obtain ⟨size, hsize⟩ := eq_stripped_append_zeros (Nat.toDigits 10 count)
  generalize hstripped :
    ((Nat.toDigits 10 count).reverse.dropWhile (· = '0')).reverse = digits at hsize
  have hcount : count = digitsValue digits * 10 ^ size := by
    rw [← digitsValue_append_zeros, ← hsize, digitsValue_toDigits]
  have hlength : (Nat.toDigits 10 count).length = digits.length + size := by
    rw [hsize, List.length_append, length_zeros]
  have hscaled : Digits.ofScaled count scale =
      ⟨digits, scale + (digits.length + size : Nat) - 1⟩ := by
    unfold Digits.ofScaled
    simp only [hstripped, hlength]
  rw [hcount, ofDecimal?_mul_pow] at h
  rw [hscaled]
  refine ⟨?_, ?_, ?_⟩
  · -- Without digits the number would be zero, and so would the magnitude.
    rintro rfl
    have hzero : ofDecimal? 0 (scale + size) = some zero := if_pos rfl
    exact hunits (congrArg units (Option.some.inj (h.symm.trans hzero)))
  · intro c hc
    apply isDigit_of_mem_toDigits (n := count)
    rw [hsize]
    exact List.mem_append_left _ hc
  · rw [← h]
    congr 1
    push_cast
    omega

theorem nearer_eq (tie : Tie) (lower rest whole : Nat) :
    nearer tie lower rest whole = lower ∨ nearer tie lower rest whole = lower + 1 := by
  unfold nearer
  cases tie <;> dsimp only <;> split <;> (try split) <;> omega

/-- A candidate that is found is rounded to the magnitude. -/
theorem ofDecimal?_of_candidate? {tie : Tie} {magnitude : Magnitude} {exact : Decimal}
    {dropped count : Nat} (h : candidate? tie magnitude exact dropped = some count) :
    ofDecimal? count (exact.exponent + dropped) = some magnitude := by
  have hreads {candidate : Nat}
      (h : magnitude.readsBack (exact.exponent + dropped) candidate = true) :
      ofDecimal? candidate (exact.exponent + dropped) = some magnitude := of_decide_eq_true h
  unfold candidate? at h
  dsimp only at h
  split at h
  case h_1 hlower hupper =>
    cases h
    rcases nearer_eq tie (exact.digits / Nat.pow 10 dropped) (exact.digits % Nat.pow 10 dropped)
      (Nat.pow 10 dropped) with hnearer | hnearer <;> rw [hnearer]
    · exact hreads hlower
    · exact hreads hupper
  case h_2 hlower _ =>
    cases h
    exact hreads hlower
  case h_3 _ hupper =>
    cases h
    exact hreads hupper
  case h_4 => cases h

theorem search_denotes (tie : Tie) {magnitude : Magnitude} (hunits : magnitude.units ≠ 0)
    {exact : Decimal} (h : ofDecimal? exact.digits exact.exponent = some magnitude)
    (dropped : Nat) :
    (search tie magnitude exact dropped).Denotes magnitude := by
  induction dropped with
  | zero => exact ofScaled_denotes hunits h
  | succ dropped ih =>
      unfold search
      split
      · next hfound => exact ofScaled_denotes hunits (ofDecimal?_of_candidate? hfound)
      · exact ih

/-- The digits that are selected for a magnitude are digits of it. -/
theorem shortest_denotes (tie : Tie) (magnitude : Magnitude) :
    (magnitude.shortest tie).Denotes magnitude := by
  unfold shortest
  split
  · next hunits =>
      rw [eq_zero_of_units hunits]
      exact ⟨by simp [Digits.zero], by simp [Digits.zero], rfl⟩
  · next hunits => exact search_denotes tie hunits magnitude.ofDecimal?_exact _

end Magnitude

/-! ## Reading a layout -/

theorem takeSign_of_isDigit {c : Char} (h : c.isDigit) (rest : List Char) :
    takeSign (c :: rest) = (false, c :: rest) := by
  unfold takeSign
  split
  · next heq =>
      cases heq
      exact absurd h (by decide)
  · next heq =>
      cases heq
      exact absurd h (by decide)
  · rfl

/-- A sign in front of a digit is taken off again. -/
theorem takeSign_signed {text : List Char} (h : ∃ c ∈ text.head?, c.isDigit) (negative : Bool) :
    takeSign (Style.signed negative text) = (negative, text) := by
  obtain ⟨first, hfirst, hdigit⟩ := h
  obtain ⟨rest, rfl⟩ := List.head?_eq_some_iff.mp hfirst
  cases negative with
  | false => exact takeSign_of_isDigit hdigit rest
  | true => rfl

/-- A run of characters of one kind ends at the first character that is not of it. -/
theorem span_append {p : Char → Bool} {run rest : List Char} (hrun : ∀ c ∈ run, p c)
    (hrest : ∀ c ∈ rest.head?, p c = false) : (run ++ rest).span p = (run, rest) := by
  rw [List.span_eq_takeWhile_dropWhile, List.takeWhile_append_of_pos hrun,
    List.dropWhile_append_of_pos hrun]
  cases rest with
  | nil => simp
  | cons c rest => simp [hrest c rfl]

namespace Decimal

/-- The exponent part of a scientific layout. -/
def exponentPart (plus : Bool) (exponent : Int) : List Char :=
  'e' :: (if exponent < 0 then ['-'] else if plus then ['+'] else []) ++
    Nat.toDigits 10 exponent.natAbs

theorem exponent?_exponentPart (plus : Bool) (exponent : Int) :
    exponent? (exponentPart plus exponent) = some exponent := by
  generalize hsize : exponent.natAbs = size
  have hdigits := natural?_toDigits size
  have hsign : takeSign (Nat.toDigits 10 size) = (false, Nat.toDigits 10 size) :=
    takeSign_signed (head?_toDigits size) false
  unfold exponentPart exponent?
  rw [hsize]
  by_cases hnegative : exponent < 0
  · have hvalue : -(size : Int) = exponent := by omega
    simp [hnegative, takeSign, hdigits, hvalue]
  · have hvalue : (size : Int) = exponent := by omega
    cases plus with
    | false => simp [hnegative, hsign, hdigits, hvalue]
    | true => simp [hnegative, takeSign, hdigits, hvalue]

/-- What follows the digits of a scientific layout is neither a digit nor a point. -/
theorem head?_exponentPart {plus : Bool} {exponent : Int} :
    ∀ c ∈ (exponentPart plus exponent).head?, c.isDigit = false ∧ c ≠ '.' := by
  rintro c hc
  cases hc
  decide

variable {whole fraction rest : List Char} {exponent : Int}

/-- A number with a point. -/
theorem read?_point (hwhole : ∀ c ∈ whole, c.isDigit) (hne : ¬(whole = [] ∧ fraction = []))
    (hfraction : ∀ c ∈ fraction, c.isDigit) (hrest : ∀ c ∈ rest.head?, c.isDigit = false)
    (hexponent : exponent? rest = some exponent) :
    read? (whole ++ '.' :: (fraction ++ rest)) =
      some ⟨digitsValue (whole ++ fraction), exponent - fraction.length⟩ := by
  have hspan : (whole ++ '.' :: (fraction ++ rest)).span Char.isDigit =
      (whole, '.' :: (fraction ++ rest)) :=
    span_append hwhole (by simp)
  have htake : takeFraction ('.' :: (fraction ++ rest)) = (fraction, rest) :=
    span_append hfraction hrest
  unfold read?
  simp only [hspan, htake, hne, if_false, hexponent, Option.map_some]

/-- A number without a point. -/
theorem read?_noPoint (hwhole : ∀ c ∈ whole, c.isDigit) (hne : whole ≠ [])
    (hrest : ∀ c ∈ rest.head?, c.isDigit = false ∧ c ≠ '.')
    (hexponent : exponent? rest = some exponent) :
    read? (whole ++ rest) = some ⟨digitsValue whole, exponent⟩ := by
  have hspan : (whole ++ rest).span Char.isDigit = (whole, rest) :=
    span_append hwhole fun c hc => (hrest c hc).1
  have htake : takeFraction rest = ([], rest) := by
    unfold takeFraction
    split
    · exact absurd rfl (hrest '.' rfl).2
    · rfl
  unfold read?
  simp only [hspan, htake, hne, false_and, if_false, hexponent, Option.map_some, List.append_nil,
    List.length_nil, Int.natCast_zero, Int.sub_zero]

end Decimal

/-- The text is read as a decimal number that is rounded to the magnitude. -/
def ReadsAs (text : List Char) (magnitude : Magnitude) : Prop :=
  ∃ decimal, Decimal.read? text = some decimal ∧
    Magnitude.ofDecimal? decimal.digits decimal.exponent = some magnitude

/-- A number with a point and no exponent. -/
theorem readsAs_point {whole fraction : List Char} {magnitude : Magnitude}
    (hwhole : ∀ c ∈ whole, c.isDigit) (hne : whole ≠ []) (hfraction : ∀ c ∈ fraction, c.isDigit)
    (hrounded : Magnitude.ofDecimal? (digitsValue (whole ++ fraction)) (-fraction.length) =
      some magnitude) :
    ReadsAs (whole ++ '.' :: fraction) magnitude := by
  have hend : ∀ c ∈ ([] : List Char).head?, c.isDigit = false := by simp
  have hexponent : Decimal.exponent? [] = some 0 := rfl
  have hread := Decimal.read?_point hwhole (fun hnone => hne hnone.1) hfraction hend hexponent
  rw [List.append_nil, Int.zero_sub] at hread
  exact ⟨_, hread, hrounded⟩

theorem Digits.scientific_eq (plus : Bool) (first second : Char) (others : List Char)
    (exponent : Int) :
    scientific plus ⟨first :: second :: others, exponent⟩ =
      [first] ++ '.' :: (second :: others ++ Decimal.exponentPart plus exponent) := by
  simp [scientific, Decimal.exponentPart]

namespace Digits.Denotes

variable {number : Digits} {magnitude : Magnitude}

theorem isDigit_of_mem_append_zeros (h : number.Denotes magnitude) {count : Nat} :
    ∀ c ∈ number.digits ++ zeros count, c.isDigit := by
  intro c hc
  rcases List.mem_append.mp hc with hc | hc
  · exact h.isDigit c hc
  · exact isDigit_of_mem_zeros hc

/-- Zeros stand before the digits. -/
theorem readsAs_zeros_append (h : number.Denotes magnitude) {count : Nat}
    (hcount : number.exponent + count = -1) :
    ReadsAs (['0'] ++ '.' :: (zeros count ++ number.digits)) magnitude := by
  refine readsAs_point (by simp) (by simp) ?_ ?_
  · intro c hc
    rcases List.mem_append.mp hc with hc | hc
    · exact isDigit_of_mem_zeros hc
    · exact h.isDigit c hc
  · rw [show ['0'] = zeros 1 from rfl, digitsValue_zeros_append, digitsValue_zeros_append,
      List.length_append, length_zeros, ← h.rounded]
    congr 1
    omega

/-- All digits stand before the point, and zeros up to it. -/
theorem readsAs_append_zeros (h : number.Denotes magnitude) {count : Nat}
    (hcount : number.digits.length + count = number.exponent + 1) :
    ReadsAs (number.digits ++ zeros count ++ '.' :: ['0']) magnitude := by
  refine readsAs_point h.isDigit_of_mem_append_zeros (by simp [h.nonempty]) (by simp) ?_
  rw [show ['0'] = zeros 1 from rfl, digitsValue_append_zeros, digitsValue_append_zeros,
    Nat.mul_assoc, ← Nat.pow_add, Magnitude.ofDecimal?_mul_pow, length_zeros, ← h.rounded]
  congr 1
  omega

/-- The point stands among the digits. -/
theorem readsAs_take_drop (h : number.Denotes magnitude) {places : Nat}
    (hplaces : places = number.exponent + 1) (hpos : 0 < places)
    (hmany : places ≤ number.digits.length) :
    ReadsAs (number.digits.take places ++ '.' :: number.digits.drop places) magnitude := by
  refine readsAs_point (fun c hc => h.isDigit c (List.mem_of_mem_take hc)) ?_
    (fun c hc => h.isDigit c (List.mem_of_mem_drop hc)) ?_
  · rw [Ne, List.take_eq_nil_iff]
    rintro (rfl | hempty)
    · exact Nat.lt_irrefl 0 hpos
    · exact h.nonempty hempty
  · rw [List.take_append_drop, List.length_drop, ← h.rounded]
    congr 1
    omega

/-- A positional layout reads back. -/
theorem readsAs_positional (h : number.Denotes magnitude) :
    ReadsAs number.positional magnitude := by
  unfold positional
  split
  · exact h.readsAs_zeros_append (by omega)
  · generalize hplaces : number.exponent.toNat + 1 = places
    dsimp only
    by_cases hfew : number.digits.length ≤ places
    · rw [List.take_of_length_le hfew, List.drop_eq_nil_of_le hfew, if_pos rfl]
      exact h.readsAs_append_zeros (by omega)
    · have hdrop : number.digits.drop places ≠ [] := by
        rw [Ne, List.drop_eq_nil_iff]
        exact hfew
      have hnone : places - number.digits.length = 0 := by omega
      rw [if_neg hdrop, hnone, zeros, List.replicate_zero, List.append_nil]
      exact h.readsAs_take_drop (by omega) (by omega) (by omega)

/-- A scientific layout reads back. -/
theorem readsAs_scientific (h : number.Denotes magnitude) (plus : Bool) :
    ReadsAs (number.scientific plus) magnitude := by
  obtain ⟨hne, hdigits, hrounded⟩ := h
  obtain ⟨digits, exponent⟩ := number
  have hexponent := Decimal.exponent?_exponentPart plus exponent
  cases digits with
  | nil => exact absurd rfl hne
  | cons first others =>
    cases others with
    | nil =>
      have hread := Decimal.read?_noPoint hdigits hne Decimal.head?_exponentPart hexponent
      refine ⟨_, hread, ?_⟩
      rw [← hrounded]
      congr 1
      exact (Int.sub_add_cancel exponent 1).symm
    | cons second others =>
      have hfirst : ∀ c ∈ [first], c.isDigit := fun c hc =>
        hdigits c (List.mem_append_left (second :: others) hc)
      have hread := Decimal.read?_point hfirst (by simp)
        (fun c hc => hdigits c (List.mem_cons_of_mem first hc))
        (fun c hc => (Decimal.head?_exponentPart c hc).1) hexponent
      rw [scientific_eq]
      refine ⟨_, hread, ?_⟩
      rw [← hrounded]
      congr 1
      simp only [List.length_cons]
      omega

/-- Every layout reads back. -/
theorem readsAs_layout (h : number.Denotes magnitude) (style : Style) :
    ReadsAs (style.layout number) magnitude := by
  unfold Style.layout
  split
  · exact h.readsAs_positional
  · exact h.readsAs_scientific style.plus

/-- A layout starts with a digit. -/
theorem head?_layout (h : number.Denotes magnitude) (style : Style) :
    ∃ c ∈ (style.layout number).head?, c.isDigit := by
  obtain ⟨first, others, hnumber⟩ := List.exists_cons_of_ne_nil h.nonempty
  have hfirst : first.isDigit := h.isDigit first (hnumber ▸ List.mem_cons_self)
  unfold Style.layout
  split
  · unfold positional
    split
    · exact ⟨'0', rfl, by decide⟩
    · simp only [hnumber, List.take_succ_cons, List.cons_append]
      exact ⟨first, rfl, hfirst⟩
  · unfold scientific
    rw [hnumber]
    cases others with
    | nil => exact ⟨first, rfl, hfirst⟩
    | cons => exact ⟨first, rfl, hfirst⟩

end Digits.Denotes

/-! ## Reading a printed number -/

theorem toLower_of_isDigit {c : Char} (h : c.isDigit) : c.toLower = c := by
  simp only [Char.isDigit, Bool.and_eq_true, decide_eq_true_eq, ge_iff_le,
    UInt32.le_iff_toNat_le] at h
  have hnine : '9'.val.toNat = 57 := rfl
  have hletter : 'A'.val.toNat = 65 := rfl
  unfold Char.toLower
  rw [dif_neg]
  rw [ge_iff_le, UInt32.le_iff_toNat_le]
  omega

/-- A text that starts with a digit is no word. -/
theorem ofList_ne_word {first : Char} (h : first.isDigit) (rest : List Char) (word : String)
    (hword : word.toList.head?.any Char.isDigit = false) :
    String.ofList ((first :: rest).map Char.toLower) ≠ word := by
  rintro rfl
  rw [String.toList_ofList, List.map_cons, toLower_of_isDigit h, List.head?_cons,
    Option.any_some, h] at hword
  cases hword

/-- A text that starts with a digit and reads back is read with its sign. -/
theorem ReadsAs.readUnsigned? {text : List Char} {magnitude : Magnitude}
    (h : ReadsAs text magnitude) (hfirst : ∃ c ∈ text.head?, c.isDigit) (negative : Bool) :
    Binary64.readUnsigned? negative text = some (.finite negative magnitude) := by
  obtain ⟨first, hhead, hdigit⟩ := hfirst
  obtain ⟨rest, rfl⟩ := List.head?_eq_some_iff.mp hhead
  obtain ⟨decimal, hread, hrounded⟩ := h
  have hnan := ofList_ne_word hdigit rest "nan" (by decide)
  have hinf := ofList_ne_word hdigit rest "inf" (by decide)
  have hinfinity := ofList_ne_word hdigit rest "infinity" (by decide)
  unfold Binary64.readUnsigned?
  simp only [hnan, hinf, hinfinity, or_self, if_false, hread, Option.map_some, hrounded,
    Binary64.ofSigned]

namespace Style

/-- The text of a finite number is read as that number. -/
theorem read?_finiteText (style : Style) (negative : Bool) (magnitude : Magnitude) :
    Binary64.read? (style.finiteText negative magnitude).toList =
      some (.finite negative magnitude) := by
  have hdenotes := magnitude.shortest_denotes style.tie
  have hfirst := hdenotes.head?_layout style
  unfold finiteText Binary64.read?
  rw [String.toList_ofList]
  simp only [takeSign_signed hfirst]
  exact (hdenotes.readsAs_layout style).readUnsigned? hfirst negative

/-- The text of a number is read as that number. -/
theorem read?_text (style : Style) (number : Binary64) :
    Binary64.read? (style.text number).toList = some number := by
  cases number with
  | nan => exact (by decide : Binary64.read? "NaN".toList = some .nan)
  | infinite negative =>
    cases negative with
    | false => exact (by decide : Binary64.read? "inf".toList = some (.infinite false))
    | true => exact (by decide : Binary64.read? "-inf".toList = some (.infinite true))
  | finite negative magnitude => exact style.read?_finiteText negative magnitude

/-- No two numbers share a text. -/
theorem text_injective (style : Style) : Function.Injective style.text := by
  intro x y h
  rw [← Option.some.injEq, ← style.read?_text x, ← style.read?_text y, h]

end Style

end SolverLog.Number
