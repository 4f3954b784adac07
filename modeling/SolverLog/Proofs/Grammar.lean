import Mathlib.Data.List.Basic
import SolverLog.Header
import SolverLog.Proofs.Integers

/-!
# The grammar of record lines

`Header.Written` says how a line is put together from the parts of its header. A scope and a label may
hold brackets, blanks and line feeds, and a rank may have zeros in front, and still no line can be put
together in two ways.

* `Header.Written.read?_eq`, `Header.exists_written` — a line is taken apart if it is put together so.
* `Header.read?_iff_written` — these lines, and no others, are record lines, each in one way.
-/

namespace SolverLog.Header

open Number

/-! ## Ranks -/

/-- The text of a rank: decimal digits, at least one, behind a minus sign or not. -/
inductive RankText : List Char → Int → Prop where
  | plain {digits : List Char} (hne : digits ≠ []) (hdigits : ∀ c ∈ digits, c.isDigit) :
      RankText digits (Nat.ofDigitChars 10 digits 0)
  | minus {digits : List Char} (hne : digits ≠ []) (hdigits : ∀ c ∈ digits, c.isDigit) :
      RankText ('-' :: digits) (-Nat.ofDigitChars 10 digits 0)

namespace RankText

variable {text : List Char} {rank : Int}

theorem mem (h : RankText text rank) : ∀ c ∈ text, c = '-' ∨ c.isDigit := by
  intro c hc
  cases h with
  | plain hne hdigits => exact .inr (hdigits c hc)
  | minus hne hdigits => exact (List.mem_cons.mp hc).imp_right (hdigits c)

/-- A character that is neither a minus sign nor a digit is not in a rank. -/
theorem not_mem (h : RankText text rank) {c : Char} (hsign : c ≠ '-') (hdigit : c.isDigit = false) :
    c ∉ text := by
  intro hc
  rcases h.mem c hc with rfl | htrue
  · exact hsign rfl
  · rw [hdigit] at htrue
    cases htrue

theorem integer? (h : RankText text rank) (hfits : FitsInteger rank) :
    Number.integer? text = some rank := by
  rw [integer?_eq_some_iff]
  cases h with
  | plain hne hdigits =>
      obtain ⟨first, rest, rfl⟩ := List.exists_cons_of_ne_nil hne
      rw [takeSign_of_isDigit (hdigits first List.mem_cons_self)]
      exact ⟨hne, hdigits, rfl, hfits⟩
  | minus hne hdigits => exact ⟨hne, hdigits, rfl, hfits⟩

end RankText

/-- A rank is an integer that is written without a plus sign. -/
theorem rank?_eq_some_iff {text : List Char} {rank : Int} :
    rank? text = some rank ↔ RankText text rank ∧ FitsInteger rank := by
  constructor
  · intro h
    unfold rank? at h
    split at h
    · cases h
    · next hplus =>
        obtain ⟨hne, hdigits, hvalue, hfits⟩ := integer?_eq_some_iff.mp h
        refine ⟨?_, hfits⟩
        rw [hvalue]
        rcases takeSign_cases text with ⟨rest, rfl, hsign⟩ | ⟨rest, rfl, -⟩ | hsign
        · rw [hsign] at hne hdigits ⊢
          exact .minus hne hdigits
        · exact (hplus rest rfl).elim
        · rw [hsign] at hne hdigits ⊢
          exact .plain hne hdigits
  · rintro ⟨htext, hfits⟩
    unfold rank?
    split
    · exact absurd List.mem_cons_self (htext.not_mem (c := '+') (by decide) (by decide))
    · exact htext.integer? hfits

/-! ## Runs of characters up to a token -/

theorem expect_eq_some_iff {token : String} {text rest : List Char} :
    expect token text = some rest ↔ text = token.toList ++ rest := by
  unfold expect
  rw [List.isPrefixOf?_eq_some_iff_append_eq, eq_comm]

section Run

variable {p : Char → Bool} {token : String} {text run rest : List Char}

/-- A run of characters ends at a token that does not go on with it. -/
theorem span_token (hrun : ∀ c ∈ run, p c) (token : String)
    (htoken : ∃ c ∈ token.toList.head?, p c = false) (rest : List Char) :
    (run ++ (token.toList ++ rest)).span p = (run, token.toList ++ rest) := by
  obtain ⟨first, hfirst, hstop⟩ := htoken
  obtain ⟨others, hothers⟩ := List.head?_eq_some_iff.mp hfirst
  rw [hothers]
  refine span_append hrun ?_
  rintro c ⟨⟩
  exact hstop

/-- A text whose run of characters ends with a token. -/
theorem eq_of_expect_dropWhile (h : expect token (text.dropWhile p) = some rest) :
    text = text.takeWhile p ++ (token.toList ++ rest) := by
  rw [← expect_eq_some_iff.mp h, List.takeWhile_append_dropWhile]

end Run

theorem isLevelChar_iff {c : Char} :
    isLevelChar c ↔ c ≠ '[' ∧ c ≠ ']' ∧ Text.isBlank c = false := by
  simp [isLevelChar, and_assoc]

theorem forall_isGroupChar_iff {text : List Char} :
    (∀ c ∈ text, isGroupChar c) ↔ ']' ∉ text := by
  simp only [isGroupChar, decide_eq_true_eq]
  exact List.forall_mem_ne'

theorem close_not_mem_takeWhile (text : List Char) : ']' ∉ text.takeWhile isGroupChar :=
  forall_isGroupChar_iff.mp fun _ hc => List.mem_takeWhile_imp hc

/-! ## Record lines -/

/-- A line is put together from the parts of a header, with that text for the rank. -/
structure Written (header : Header) (rankText line : String) : Prop where
  line_eq : line = "[" ++ header.level ++ "][rank " ++ rankText ++ "][" ++ header.scope ++ "][" ++
    header.label ++ "]" ++ header.payload
  level_ne : header.level ≠ ""
  level : ∀ c ∈ header.level.toList, c ≠ '[' ∧ c ≠ ']' ∧ Text.isBlank c = false
  rank : RankText rankText.toList header.rank
  rank_fits : FitsInteger header.rank
  scope : ']' ∉ header.scope.toList
  label : ']' ∉ header.label.toList
  payload : '\n' ∉ header.payload.toList

variable {header header' : Header} {line rankText rankText' : String}

theorem Written.toList_line (h : header.Written rankText line) :
    line.toList = "[".toList ++ (header.level.toList ++ ("][rank ".toList ++ (rankText.toList ++
      ("][".toList ++ (header.scope.toList ++ ("][".toList ++ (header.label.toList ++
        ("]".toList ++ header.payload.toList)))))))) := by
  rw [h.line_eq]
  simp only [String.toList_append, List.append_assoc]

/-- A line that is put together from a header is taken apart into it. -/
theorem Written.read?_eq (h : header.Written rankText line) : read? line = some header := by
  have hexpect (token : String) (rest : List Char) :
      expect token (token.toList ++ rest) = some rest := expect_eq_some_iff.mpr rfl
  have hlevel : ∀ c ∈ header.level.toList, isLevelChar c :=
    fun c hc => isLevelChar_iff.mpr (h.level c hc)
  have hrank : ∀ c ∈ rankText.toList, isGroupChar c :=
    forall_isGroupChar_iff.mpr (h.rank.not_mem (by decide) (by decide))
  have hscope : ∀ c ∈ header.scope.toList, isGroupChar c := forall_isGroupChar_iff.mpr h.scope
  have hlabel : ∀ c ∈ header.label.toList, isGroupChar c := forall_isGroupChar_iff.mpr h.label
  have hvalue : rank? rankText.toList = some header.rank :=
    rank?_eq_some_iff.mpr ⟨h.rank, h.rank_fits⟩
  have hne : header.level.toList ≠ [] := mt String.toList_eq_nil_iff.mp h.level_ne
  unfold read?
  simp only [h.toList_line, hexpect, Option.bind_eq_bind, Option.bind_some,
    span_token hlevel "][rank " ⟨']', rfl, rfl⟩,
    span_token hrank "][" ⟨']', rfl, rfl⟩, hvalue,
    span_token hscope "][" ⟨']', rfl, rfl⟩,
    span_token hlabel "]" ⟨']', rfl, rfl⟩,
    hne, h.payload, or_self, if_false, String.ofList_toList]

/-- A record line is put together from its header. -/
theorem exists_written (h : read? line = some header) :
    ∃ rankText, header.Written rankText line := by
  unfold read? at h
  simp only [Option.bind_eq_bind, Option.bind_eq_some_iff, List.span_eq_takeWhile_dropWhile,
    Option.ite_none_left_eq_some, not_or] at h
  obtain ⟨afterOpen, hopen, afterLevel, hlevel, rank, hrank, afterRank, hafterRank, afterScope,
    hscope, payload, hlabel, ⟨hne, hpayload⟩, hheader⟩ := h
  obtain ⟨hrankText, hfits⟩ := rank?_eq_some_iff.mp hrank
  cases hheader
  refine ⟨String.ofList (afterLevel.takeWhile isGroupChar), ?_, ?_, ?_, ?_, hfits, ?_, ?_, ?_⟩
  · -- Each text is the run that was taken off it, the token after that, and the next text.
    apply String.toList_inj.mp
    simp only [String.toList_append, String.toList_ofList, List.append_assoc]
    rw [← eq_of_expect_dropWhile hlabel, ← eq_of_expect_dropWhile hscope,
      ← eq_of_expect_dropWhile hafterRank, ← eq_of_expect_dropWhile hlevel,
      expect_eq_some_iff.mp hopen]
  · exact mt String.ofList_eq_empty_iff.mp hne
  · intro c hc
    rw [String.toList_ofList] at hc
    exact isLevelChar_iff.mp (List.mem_takeWhile_imp hc)
  · rwa [String.toList_ofList]
  · rw [String.toList_ofList]
    exact close_not_mem_takeWhile afterRank
  · rw [String.toList_ofList]
    exact close_not_mem_takeWhile afterScope
  · rwa [String.toList_ofList]

/-- What a line is put together from is told by the line. -/
theorem Written.unique (h : header.Written rankText line) (h' : header'.Written rankText' line) :
    header = header' ∧ rankText = rankText' := by
  have hheader : header = header' := Option.some.inj (h.read?_eq.symm.trans h'.read?_eq)
  subst hheader
  refine ⟨rfl, String.toList_inj.mp ?_⟩
  -- All but the texts of the ranks is the same on both sides.
  have hlists := h.toList_line.symm.trans h'.toList_line
  have htail := List.append_cancel_left (List.append_cancel_left (List.append_cancel_left hlists))
  exact List.append_cancel_right htail

/-- A line is taken apart exactly if it is put together as a record line is, and no line is put
together in two ways. -/
theorem read?_iff_written (line : String) :
    (∀ header : Header, read? line = some header ↔ ∃ rankText, header.Written rankText line) ∧
      ∀ (header header' : Header) (rankText rankText' : String), header.Written rankText line →
        header'.Written rankText' line → header = header' ∧ rankText = rankText' := by
  refine ⟨fun header => ⟨exists_written, ?_⟩, fun _ _ _ _ => Written.unique⟩
  rintro ⟨rankText, hwritten⟩
  exact hwritten.read?_eq

/-! The greatest integer of 64 bits is a rank, and the next one is none. -/

example : (read? "[I][rank 9223372036854775807][][]").isSome = true := by decide +kernel
example : read? "[I][rank 9223372036854775808][][]" = none := by decide +kernel

/-- A record line with zeros in front of its rank, a bracket and a line feed in its scope, an empty
label, and brackets in its payload. -/
def nestedLine : String :=
  "[I][rank -007][a[b\nc ][][x][rank 1] = 2"

/-- The header of that line. -/
def nestedHeader : Header where
  level := "I"
  rank := -7
  scope := "a[b\nc "
  label := ""
  payload := "[x][rank 1] = 2"

theorem read?_iff_written_nested :
    read? nestedLine = some nestedHeader ∧
      ∀ (header : Header) (rankText : String), header.Written rankText nestedLine →
        header = nestedHeader ∧ rankText = "-007" := by
  have hrank : RankText "-007".toList (-7) :=
    @RankText.minus ['0', '0', '7'] (by decide) (List.all_eq_true.mp (by decide))
  have hlevel : ∀ c ∈ nestedHeader.level.toList, isLevelChar c := List.all_eq_true.mp (by decide)
  have hwritten : nestedHeader.Written "-007" nestedLine :=
    ⟨by decide, by decide, fun c hc => isLevelChar_iff.mp (hlevel c hc), hrank, by decide, by decide,
      by decide, by decide⟩
  refine ⟨((read?_iff_written nestedLine).1 nestedHeader).mpr ⟨_, hwritten⟩, ?_⟩
  intro header rankText h
  exact (read?_iff_written nestedLine).2 header nestedHeader rankText "-007" h hwritten

end SolverLog.Header
