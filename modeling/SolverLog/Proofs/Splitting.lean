import Mathlib.Data.List.DropRight
import SolverLog.Text.Blank

/-!
# Texts that are trimmed or split

* `trim_eq_self` — a text is trimmed if no blank is its first or its last character.
* `trim_append_blanks`, `trim_blanks_append` — blanks at either end of a text do not count.
* `mem_of_mem_splitOn`, `not_mem_intercalate` — what the pieces between separators consist of, and
  what pieces that are joined consist of.
-/

namespace SolverLog.Text

variable {text blanks : List Char}

/-! ## The ends of a trimmed text -/

theorem trimEnd_initial (text : List Char) : trimEnd text <+: text :=
  List.rdropWhile_prefix isBlank text

theorem mem_of_mem_trim {c : Char} (h : c ∈ trim text) : c ∈ text :=
  (List.dropWhile_suffix isBlank).subset ((trimEnd_initial (trimStart text)).subset h)

theorem isBlank_head?_trim (text : List Char) : ∀ c ∈ (trim text).head?, isBlank c = false := by
  intro c hc
  have hfirst : (trimStart text).head? = some c := by
    obtain ⟨rest, hrest⟩ := trimEnd_initial (trimStart text)
    rw [← hrest]
    exact List.mem_head?_append_of_mem_head? hc
  have hnot := List.head?_dropWhile_not isBlank text
  unfold trimStart at hfirst
  rw [hfirst] at hnot
  exact hnot

theorem isBlank_getLast?_trim (text : List Char) :
    ∀ c ∈ (trim text).getLast?, isBlank c = false := by
  intro c hc
  unfold trim trimEnd at hc
  rw [List.getLast?_reverse] at hc
  have hnot := List.head?_dropWhile_not isBlank (trimStart text).reverse
  unfold trimStart at hc hnot
  rw [Option.mem_def.mp hc] at hnot
  exact hnot

/-- A text is trimmed if no blank is its first or its last character. -/
theorem trim_eq_self (hfirst : ∀ c ∈ text.head?, isBlank c = false)
    (hlast : ∀ c ∈ text.getLast?, isBlank c = false) : trim text = text := by
  have hstart (text : List Char) (h : ∀ c ∈ text.head?, isBlank c = false) :
      trimStart text = text := by
    cases text with
    | nil => rfl
    | cons first rest => exact List.dropWhile_cons_of_neg (by simp [h first rfl])
  unfold trim trimEnd
  rw [hstart text hfirst, hstart text.reverse (by rwa [List.head?_reverse]), List.reverse_reverse]

theorem trim_trim (text : List Char) : trim (trim text) = trim text :=
  trim_eq_self (isBlank_head?_trim text) (isBlank_getLast?_trim text)

/-- A text without blanks is trimmed. -/
theorem trim_eq_self_of_forall (h : ∀ c ∈ text, isBlank c = false) : trim text = text :=
  trim_eq_self (fun c hc => h c (List.mem_of_mem_head? hc))
    fun c hc => h c (List.mem_of_mem_getLast? hc)

/-! ## Blanks at the ends -/

theorem trim_blanks_append (h : ∀ c ∈ blanks, isBlank c) (text : List Char) :
    trim (blanks ++ text) = trim text := by
  unfold trim trimStart
  rw [List.dropWhile_append_of_pos h]

theorem trimEnd_append_blanks (h : ∀ c ∈ blanks, isBlank c) (text : List Char) :
    trimEnd (text ++ blanks) = trimEnd text := by
  unfold trimEnd trimStart
  rw [List.reverse_append, List.dropWhile_append_of_pos]
  intro c hc
  exact h c (List.mem_reverse.mp hc)

theorem trim_append_blanks (h : ∀ c ∈ blanks, isBlank c) (text : List Char) :
    trim (text ++ blanks) = trim text := by
  unfold trim
  have hstart : trimStart (text ++ blanks) = trimStart text ++ blanks ∨
      trimStart (text ++ blanks) = [] ∧ trimStart text = [] := by
    unfold trimStart
    rw [List.dropWhile_append]
    split
    · next hnone => exact .inr ⟨List.dropWhile_eq_nil_iff.mpr h, List.isEmpty_iff.mp hnone⟩
    · exact .inl rfl
  rcases hstart with hstart | ⟨hnone, hnone'⟩
  · rw [hstart, trimEnd_append_blanks h]
  · rw [hnone, hnone']

/-- Nothing is left of a text that is blank. -/
theorem trim_eq_nil_iff : trim text = [] ↔ ∀ c ∈ text, isBlank c = true := by
  constructor
  · intro h c hc
    rw [← @List.takeWhile_append_dropWhile _ isBlank text] at hc
    rcases List.mem_append.mp hc with hstart | hrest
    · exact List.mem_takeWhile_imp hstart
    · have hall : ∀ c ∈ trimStart text, isBlank c := List.rdropWhile_eq_nil_iff.mp h
      exact hall c hrest
  · intro h
    have hnone := trim_blanks_append h []
    rwa [List.append_nil] at hnone

/-! ## Pieces between separators -/

/-- The characters of a piece are those of the text, without the separator. -/
theorem mem_of_mem_splitOn {separator c : Char} {piece : List Char}
    (hpiece : piece ∈ text.splitOn separator) (hc : c ∈ piece) : c ∈ text ∧ c ≠ separator := by
  induction text generalizing piece with
  | nil =>
      rw [List.splitOn_nil, List.mem_singleton] at hpiece
      rw [hpiece] at hc
      cases hc
  | cons first rest ih =>
      rw [List.splitOn_cons_eq_if_modifyHead] at hpiece
      split at hpiece
      · rcases List.mem_cons.mp hpiece with rfl | hrest
        · cases hc
        · exact (ih hrest hc).imp_left (List.mem_cons_of_mem first)
      · next hfirst =>
          obtain ⟨head, tail, htail⟩ :=
            List.exists_cons_of_ne_nil (List.splitOn_ne_nil separator rest)
          rw [htail] at hpiece ih
          rcases List.mem_cons.mp hpiece with rfl | hrest
          · rcases List.mem_cons.mp hc with rfl | hc
            · exact ⟨List.mem_cons_self, by simpa using hfirst⟩
            · exact (ih List.mem_cons_self hc).imp_left (List.mem_cons_of_mem first)
          · exact (ih (List.mem_cons_of_mem head hrest) hc).imp_left (List.mem_cons_of_mem first)

/-- A character that is neither in the separator nor in a piece is not between them. -/
theorem not_mem_intercalate {separator : List Char} {pieces : List (List Char)} {c : Char}
    (hseparator : c ∉ separator) (hpieces : ∀ piece ∈ pieces, c ∉ piece) :
    c ∉ separator.intercalate pieces := by
  induction pieces with
  | nil => exact List.not_mem_nil
  | cons piece rest ih =>
      rw [List.forall_mem_cons] at hpieces
      cases rest with
      | nil => simpa using hpieces.1
      | cons next rest =>
          rw [List.intercalate_cons_cons, List.mem_append, List.mem_append, not_or, not_or]
          exact ⟨⟨hpieces.1, hseparator⟩, ih hpieces.2⟩

end SolverLog.Text
