import SolverLog.Json.Text
import SolverLog.Proofs.Numerals

/-!
# Compact JSON texts

No two values of JSON share a compact text (`Json.compact_injective`).

The text of a value stands on its own: what follows it can be told from it, as long as that does not
go on as a number does (`Json.chars_append_inj`). Its first character tells the kind of the value
(`Json.kind?_head`), a number ends where its characters end, a string at the first quote that is
not escaped, and a list or an object at its bracket, by induction on the value.
-/

namespace SolverLog.Json

open Number

/-! ## Strings -/

/-- The value of a hexadecimal digit. -/
def hexValue (c : Char) : Nat :=
  if c.isDigit then c.toNat - '0'.toNat else c.toNat - 'a'.toNat + 10

/-- Reads the character at the front of an escaped text, if the text does not end there. -/
def unescape? : List Char → Option (Char × List Char)
  | [] => none
  | '"' :: _ => none
  | '\\' :: 'u' :: '0' :: '0' :: high :: low :: rest =>
    some (Char.ofNat (16 * hexValue high + hexValue low), rest)
  | '\\' :: 'b' :: rest => some ('\x08', rest)
  | '\\' :: 'f' :: rest => some ('\x0c', rest)
  | '\\' :: 'n' :: rest => some ('\n', rest)
  | '\\' :: 'r' :: rest => some ('\r', rest)
  | '\\' :: 't' :: rest => some ('\t', rest)
  | '\\' :: c :: rest => some (c, rest)
  | c :: rest => some (c, rest)

theorem hexValue_digitChar : ∀ n < 32,
    16 * hexValue (Nat.digitChar (n / 16)) + hexValue (Nat.digitChar (n % 16)) = n := by
  decide

/-- An escaped character is read as that character. -/
theorem unescape?_escape (c : Char) (rest : List Char) :
    unescape? (escape c ++ rest) = some (c, rest) := by
  unfold escape
  split
  · next h => rw [h]; rfl
  split
  · next h => rw [h]; rfl
  split
  · next h => rw [h]; rfl
  split
  · next h => rw [h]; rfl
  split
  · next h => rw [h]; rfl
  split
  · next h => rw [h]; rfl
  split
  · next h => rw [h]; rfl
  split
  · next hcontrol =>
      have hvalue := hexValue_digitChar c.toNat hcontrol
      simp only [List.cons_append, List.nil_append, unescape?, hvalue, Char.ofNat_toNat]
  · next hquote hbackslash _ _ _ _ _ _ =>
      unfold unescape?
      split <;> simp_all

/-- An escaped text ends at its quote. -/
theorem escaped_append_inj {xs ys rest rest' : List Char}
    (h : xs.flatMap escape ++ '"' :: rest = ys.flatMap escape ++ '"' :: rest') :
    xs = ys ∧ rest = rest' := by
  have hend (rest : List Char) : unescape? ('"' :: rest) = none := rfl
  induction xs generalizing ys with
  | nil =>
    cases ys with
    | nil => exact ⟨rfl, List.tail_eq_of_cons_eq h⟩
    | cons y ys =>
      have hread := congrArg unescape? h
      rw [List.flatMap_cons, List.append_assoc, unescape?_escape] at hread
      exact absurd ((hend rest).symm.trans hread) (by simp)
  | cons x xs ih =>
    cases ys with
    | nil =>
      have hread := congrArg unescape? h
      rw [List.flatMap_cons, List.append_assoc, unescape?_escape] at hread
      exact absurd (hread.trans (hend rest')) (by simp)
    | cons y ys =>
      have hread := congrArg unescape? h
      rw [List.flatMap_cons, List.append_assoc, unescape?_escape, List.flatMap_cons,
        List.append_assoc, unescape?_escape, Option.some.injEq, Prod.mk.injEq] at hread
      obtain ⟨rfl, hrest⟩ := hread
      obtain ⟨rfl, rfl⟩ := ih hrest
      exact ⟨rfl, rfl⟩

theorem toList_quote (text : String) :
    (quote text).toList = '"' :: text.toList.flatMap escape ++ ['"'] := by
  rw [quote, String.toList_ofList]

/-- What follows a string can be told from it. -/
theorem quote_append_inj {s t : String} {rest rest' : List Char}
    (h : (quote s).toList ++ rest = (quote t).toList ++ rest') : s = t ∧ rest = rest' := by
  simp only [toList_quote, List.cons_append, List.append_assoc, List.nil_append,
    List.cons.injEq, true_and] at h
  obtain ⟨hchars, hrest⟩ := escaped_append_inj h
  exact ⟨String.toList_injective hchars, hrest⟩

/-! ## Numbers -/

/-- The text does not go on as a number does. -/
def Ends (rest : List Char) : Prop :=
  ∀ c ∈ rest.head?, isNumeric c = false

theorem ends_nil : Ends [] := by
  intro c hc
  cases hc

theorem ends_cons {c : Char} (h : isNumeric c = false) (rest : List Char) : Ends (c :: rest) := by
  intro c' hc'
  cases hc'
  exact h

/-- A numeral ends where its characters end. -/
theorem numeral_append_inj {s t : String} {rest rest' : List Char}
    (hs : ∀ c ∈ s.toList, isNumeric c) (ht : ∀ c ∈ t.toList, isNumeric c) (hrest : Ends rest)
    (hrest' : Ends rest') (h : s.toList ++ rest = t.toList ++ rest') : s = t ∧ rest = rest' := by
  have hspan := congrArg (List.span isNumeric) h
  rw [span_append hs hrest, span_append ht hrest', Prod.mk.injEq] at hspan
  exact ⟨String.toList_injective hspan.1, hspan.2⟩

/-! ## Values -/

mutual

/-- The characters of the compact text of a value. -/
def chars : Json → List Char
  | null => "null".toList
  | integer value => (integerText value).toList
  | number negative magnitude => (numberStyle.finiteText negative magnitude).toList
  | text words => (quote words).toList
  | list [] => ['[', ']']
  | list (item :: rest) => '[' :: chars item ++ itemChars rest ++ [']']
  | object [] => ['\x7b', '\x7d']
  | object ((key, value) :: rest) =>
    '\x7b' :: (quote key).toList ++ ':' :: chars value ++ memberChars rest ++ ['\x7d']

/-- The characters of the items after the first. -/
def itemChars : List Json → List Char
  | [] => []
  | item :: rest => ',' :: chars item ++ itemChars rest

/-- The characters of the members after the first. -/
def memberChars : List (String × Json) → List Char
  | [] => []
  | (key, value) :: rest =>
    ',' :: (quote key).toList ++ ':' :: chars value ++ memberChars rest

end

@[simp]
theorem Spacing.compact_lineBreak (depth : Nat) : Spacing.compact.lineBreak depth = "" :=
  rfl

@[simp]
theorem Spacing.compact_colon : Spacing.compact.colon = ":" :=
  rfl

mutual

theorem flatMap_pieces (depth : Nat) : (json : Json) →
    (json.pieces .compact depth).flatMap String.toList = json.chars
  | null => by simp [pieces, chars]
  | integer value => by simp [pieces, chars]
  | number negative magnitude => by simp [pieces, chars]
  | text words => by simp [pieces, chars]
  | list [] => by simp [pieces, chars]
  | list (item :: rest) => by
    simp [pieces, chars, flatMap_pieces _ item, flatMap_itemPieces _ rest]
  | object [] => by simp [pieces, chars]
  | object ((key, value) :: rest) => by
    simp [pieces, chars, flatMap_pieces _ value, flatMap_memberPieces _ rest]

theorem flatMap_itemPieces (depth : Nat) : (items : List Json) →
    (itemPieces .compact depth items).flatMap String.toList = itemChars items
  | [] => rfl
  | item :: rest => by
    simp [itemPieces, itemChars, flatMap_pieces _ item,
      flatMap_itemPieces _ rest]

theorem flatMap_memberPieces (depth : Nat) : (members : List (String × Json)) →
    (memberPieces .compact depth members).flatMap String.toList = memberChars members
  | [] => rfl
  | (key, value) :: rest => by
    simp [memberPieces, memberChars, flatMap_pieces _ value,
      flatMap_memberPieces _ rest]

end

theorem toList_compact (json : Json) : json.compact.toList = json.chars := by
  rw [compact, render, String.toList_join, flatMap_pieces]

/-! ## The kind of a value -/

/-- What the first character of a text tells. -/
inductive Kind where
  | null
  | numeral
  | text
  | list
  | object
deriving DecidableEq

/-- The kind of a value. -/
def kind : Json → Kind
  | null => .null
  | integer _ => .numeral
  | number .. => .numeral
  | text _ => .text
  | list _ => .list
  | object _ => .object

/-- The kind of the values whose texts start with that character. -/
def Kind.ofChar? (c : Char) : Option Kind :=
  if c = 'n' then some .null
  else if c = '"' then some .text
  else if c = '[' then some .list
  else if c = '\x7b' then some .object
  else if c.isDigit || c = '-' then some .numeral
  else none

theorem Kind.ofChar?_of_isDigit {c : Char} (h : c.isDigit) : ofChar? c = some .numeral := by
  unfold ofChar?
  rw [if_neg, if_neg, if_neg, if_neg, if_pos]
  · simp [h]
  all_goals
    rintro rfl
    exact absurd h (by decide)

theorem Kind.ofChar?_signed {text rest : List Char} (h : ∃ c ∈ text.head?, c.isDigit)
    (negative : Bool) :
    ∃ c ∈ (Style.signed negative text ++ rest).head?, ofChar? c = some .numeral := by
  obtain ⟨first, hfirst, hdigit⟩ := h
  obtain ⟨others, rfl⟩ := List.head?_eq_some_iff.mp hfirst
  cases negative with
  | false => exact ⟨first, rfl, ofChar?_of_isDigit hdigit⟩
  | true => exact ⟨'-', rfl, rfl⟩

/-- The first character of a text tells the kind of the value. -/
theorem kind?_head (json : Json) (rest : List Char) :
    ∃ c ∈ (json.chars ++ rest).head?, Kind.ofChar? c = some json.kind := by
  match json with
  | null => exact ⟨'n', rfl, rfl⟩
  | integer value =>
    rw [chars, toList_integerText]
    exact Kind.ofChar?_signed (head?_toDigits value.natAbs) _
  | number negative magnitude =>
    rw [chars, Style.finiteText, String.toList_ofList]
    exact Kind.ofChar?_signed
      ((magnitude.shortest_denotes numberStyle.tie).head?_layout numberStyle) negative
  | text words =>
    rw [chars, toList_quote]
    exact ⟨'"', rfl, rfl⟩
  | list [] => exact ⟨'[', rfl, rfl⟩
  | list (item :: items) => exact ⟨'[', rfl, rfl⟩
  | object [] => exact ⟨'\x7b', rfl, rfl⟩
  | object ((key, value) :: members) => exact ⟨'\x7b', rfl, rfl⟩

theorem kind_eq_of_append {x y : Json} {rest rest' : List Char}
    (h : x.chars ++ rest = y.chars ++ rest') : x.kind = y.kind := by
  obtain ⟨c, hc, hkind⟩ := x.kind?_head rest
  obtain ⟨c', hc', hkind'⟩ := y.kind?_head rest'
  rw [h] at hc
  cases Option.mem_unique hc hc'
  exact Option.some.inj (hkind.symm.trans hkind')

/-- A text does not start with a character that no value starts with. -/
theorem chars_append_ne_cons {c : Char} (h : Kind.ofChar? c = none) (json : Json)
    (rest rest' : List Char) : json.chars ++ rest ≠ c :: rest' := by
  intro heq
  obtain ⟨c', hc', hkind⟩ := json.kind?_head rest
  rw [heq] at hc'
  cases hc'
  rw [h] at hkind
  cases hkind

/-! ## Telling values apart -/

/-- The items after the first end at the bracket or go on with a comma. -/
theorem ends_itemChars (items : List Json) (rest : List Char) :
    Ends (itemChars items ++ ']' :: rest) := by
  cases items with
  | nil => exact ends_cons (by decide) rest
  | cons => exact ends_cons (by decide) _

theorem ends_memberChars (members : List (String × Json)) (rest : List Char) :
    Ends (memberChars members ++ '\x7d' :: rest) := by
  match members with
  | [] => exact ends_cons (by decide) rest
  | (_, _) :: _ => exact ends_cons (by decide) _

/-- Numerals of two values, the values and what follows them. -/
theorem numeral_chars_append_inj {x y : Json} (hx : x.kind = .numeral) (hy : y.kind = .numeral)
    {rest rest' : List Char} (hrest : Ends rest) (hrest' : Ends rest')
    (h : x.chars ++ rest = y.chars ++ rest') : x = y ∧ rest = rest' := by
  have hinteger (m : Int) : ∀ c ∈ (integerText m).toList, isNumeric c :=
    isNumeric_of_mem_integerText
  have hnumber := numberStyle.isNumeric_of_mem_finiteText
  cases x with
  | integer m =>
    cases y with
    | integer n =>
      obtain ⟨htext, rfl⟩ := numeral_append_inj (hinteger m) (hinteger n) hrest hrest' h
      exact ⟨congrArg integer (integerText_injective htext), rfl⟩
    | number negative magnitude =>
      obtain ⟨htext, -⟩ :=
        numeral_append_inj (hinteger m) (hnumber negative magnitude) hrest hrest' h
      exact absurd htext.symm (numberStyle.finiteText_ne_integerText negative magnitude m)
    | null | text _ | list _ | object _ => cases hy
  | number negative magnitude =>
    cases y with
    | integer n =>
      obtain ⟨htext, -⟩ :=
        numeral_append_inj (hnumber negative magnitude) (hinteger n) hrest hrest' h
      exact absurd htext (numberStyle.finiteText_ne_integerText negative magnitude n)
    | number negative' magnitude' =>
      obtain ⟨htext, rfl⟩ := numeral_append_inj (hnumber negative magnitude)
        (hnumber negative' magnitude') hrest hrest' h
      have hsame : Binary64.finite negative magnitude = .finite negative' magnitude' :=
        numberStyle.text_injective htext
      cases hsame
      exact ⟨rfl, rfl⟩
    | null | text _ | list _ | object _ => cases hy
  | null | text _ | list _ | object _ => cases hx

theorem exists_list {x : Json} (h : x.kind = .list) : ∃ items, x = list items := by
  cases x with
  | list items => exact ⟨items, rfl⟩
  | null | integer _ | number _ _ | text _ | object _ => cases h

theorem exists_object {x : Json} (h : x.kind = .object) : ∃ members, x = object members := by
  cases x with
  | object members => exact ⟨members, rfl⟩
  | null | integer _ | number _ _ | text _ | list _ => cases h

mutual

/-- What follows the text of a value can be told from it, and the value is told by its text. -/
theorem chars_append_inj (x y : Json) {rest rest' : List Char} (hrest : Ends rest)
    (hrest' : Ends rest') (h : x.chars ++ rest = y.chars ++ rest') : x = y ∧ rest = rest' := by
  have hkind := kind_eq_of_append h
  cases x with
  | null =>
    cases y with
    | null => exact ⟨rfl, List.append_cancel_left h⟩
    | integer _ | number _ _ | text _ | list _ | object _ => cases hkind
  | integer m => exact numeral_chars_append_inj rfl hkind.symm hrest hrest' h
  | number negative magnitude => exact numeral_chars_append_inj rfl hkind.symm hrest hrest' h
  | text s =>
    cases y with
    | text t =>
      obtain ⟨rfl, rfl⟩ := quote_append_inj h
      exact ⟨rfl, rfl⟩
    | null | integer _ | number _ _ | list _ | object _ => cases hkind
  | list xs =>
    obtain ⟨ys, rfl⟩ := exists_list hkind.symm
    match xs, ys with
    | [], [] => exact ⟨rfl, List.append_cancel_left h⟩
    | [], y :: ys =>
      simp only [chars, List.cons_append, List.append_assoc, List.nil_append, List.cons.injEq,
        true_and] at h
      exact absurd h.symm (chars_append_ne_cons (by decide) y _ _)
    | x :: xs, [] =>
      simp only [chars, List.cons_append, List.append_assoc, List.nil_append, List.cons.injEq,
        true_and] at h
      exact absurd h (chars_append_ne_cons (by decide) x _ _)
    | x :: xs, y :: ys =>
      -- But for the bracket they are the items after some first one.
      have hitems : itemChars (x :: xs) ++ ']' :: rest = itemChars (y :: ys) ++ ']' :: rest' := by
        simpa [chars, itemChars] using h
      obtain ⟨heq, rfl⟩ := itemChars_append_inj (x :: xs) (y :: ys) hitems
      exact ⟨congrArg list heq, rfl⟩
  | object xs =>
    obtain ⟨ys, rfl⟩ := exists_object hkind.symm
    match xs, ys with
    | [], [] => exact ⟨rfl, List.append_cancel_left h⟩
    | [], (key, y) :: ys =>
      simp only [chars, toList_quote, List.cons_append, List.append_assoc, List.nil_append,
        List.cons.injEq, true_and] at h
      exact absurd h.1 (by decide)
    | (key, x) :: xs, [] =>
      simp only [chars, toList_quote, List.cons_append, List.append_assoc, List.nil_append,
        List.cons.injEq, true_and] at h
      exact absurd h.1 (by decide)
    | (key, x) :: xs, (key', y) :: ys =>
      have hmembers : memberChars ((key, x) :: xs) ++ '\x7d' :: rest =
          memberChars ((key', y) :: ys) ++ '\x7d' :: rest' := by
        simpa [chars, memberChars] using h
      obtain ⟨heq, rfl⟩ := memberChars_append_inj ((key, x) :: xs) ((key', y) :: ys) hmembers
      exact ⟨congrArg object heq, rfl⟩

theorem itemChars_append_inj (xs ys : List Json) {rest rest' : List Char}
    (h : itemChars xs ++ ']' :: rest = itemChars ys ++ ']' :: rest') : xs = ys ∧ rest = rest' := by
  match xs, ys with
  | [], [] => exact ⟨rfl, List.tail_eq_of_cons_eq h⟩
  | [], y :: ys => exact absurd (List.head_eq_of_cons_eq h) (by decide)
  | x :: xs, [] => exact absurd (List.head_eq_of_cons_eq h) (by decide)
  | x :: xs, y :: ys =>
    simp only [itemChars, List.cons_append, List.append_assoc, List.cons.injEq, true_and] at h
    obtain ⟨rfl, hitems⟩ := chars_append_inj x y (ends_itemChars xs rest)
      (ends_itemChars ys rest') h
    obtain ⟨rfl, rfl⟩ := itemChars_append_inj xs ys hitems
    exact ⟨rfl, rfl⟩

theorem memberChars_append_inj (xs ys : List (String × Json)) {rest rest' : List Char}
    (h : memberChars xs ++ '\x7d' :: rest = memberChars ys ++ '\x7d' :: rest') :
    xs = ys ∧ rest = rest' := by
  match xs, ys with
  | [], [] => exact ⟨rfl, List.tail_eq_of_cons_eq h⟩
  | [], (key, y) :: ys => exact absurd (List.head_eq_of_cons_eq h) (by decide)
  | (key, x) :: xs, [] => exact absurd (List.head_eq_of_cons_eq h) (by decide)
  | (key, x) :: xs, (key', y) :: ys =>
    simp only [memberChars, List.cons_append, List.append_assoc, List.cons.injEq, true_and] at h
    obtain ⟨rfl, hvalue⟩ := quote_append_inj h
    obtain ⟨rfl, hmembers⟩ := chars_append_inj x y (ends_memberChars xs rest)
      (ends_memberChars ys rest') (List.tail_eq_of_cons_eq hvalue)
    obtain ⟨rfl, rfl⟩ := memberChars_append_inj xs ys hmembers
    exact ⟨rfl, rfl⟩

end

/-- No two values share a compact text. -/
theorem compact_injective : Function.Injective compact := by
  intro x y h
  have hchars := congrArg String.toList h
  rw [toList_compact, toList_compact] at hchars
  have hwhole : x.chars ++ [] = y.chars ++ [] := by rw [hchars]
  exact (chars_append_inj x y ends_nil ends_nil hwhole).1

end SolverLog.Json
