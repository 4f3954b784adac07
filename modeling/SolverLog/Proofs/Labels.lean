import Mathlib.Data.List.Basic
import SolverLog.Marker

/-!
# What labels say

A label is `begin-` or `end-` with a name, or it marks nothing. The name of a section tells its kind,
so sections that labels name are told apart by their names alone.

* `Section.IsNamed.eq_iff` — such sections are one if their names are.
* `Marker.ofLabel_eq_opens_step`, `Marker.ofLabel_eq_opens_entry`,
  `Marker.ofLabel_eq_beginsFastSteps`, `Marker.ofLabel_eq_endsFastSteps` — the labels of the markers
  that steps, list entries and regions of fast steps begin and end with.
-/

namespace SolverLog

namespace Section

theorem name_ofName (name : List Char) : (ofName name).name = String.ofList name := by
  unfold ofName
  split
  · next h => simp [h, Section.name]
  · split
    · rfl
    · rfl
    · next list _ hsuffix =>
        have happend := List.append_eq_of_isSuffixOf?_eq_some hsuffix
        rw [← happend, String.ofList_append, String.ofList_toList]
        rfl

/-- A section that a label names. -/
def IsNamed (opened : Section) : Prop :=
  ofName opened.name.toList = opened

theorem isNamed_ofName (name : List Char) : (ofName name).IsNamed := by
  rw [IsNamed, name_ofName, String.toList_ofList]

/-- Sections that labels name are told apart by their names. -/
theorem IsNamed.eq_iff {a b : Section} (ha : a.IsNamed) (hb : b.IsNamed) :
    a = b ↔ a.name = b.name := by
  constructor
  · exact congrArg name
  · intro h
    rw [← ha, ← hb, h]

theorem isNamed_step : step.IsNamed := by
  unfold IsNamed ofName
  exact if_pos rfl

/-- The suffix alone is a plain name, and a step attempt does not end with it. -/
theorem isNamed_entry_iff {list : String} : (entry list).IsNamed ↔ list ≠ "" := by
  have hsuffix : listSuffix.toList.isSuffixOf? (entry list).name.toList = some list.toList := by
    rw [List.isSuffixOf?_eq_some_iff_append_eq, Section.name, String.toList_append]
  -- The name of a step attempt has another end, so no entry is taken for one.
  have hstep : (entry list).name.toList ≠ stepName.toList := by
    intro h
    have hends : listSuffix.toList <:+ stepName.toList := by
      rw [← h, Section.name, String.toList_append]
      exact List.suffix_append _ _
    exact absurd hends (by decide)
  unfold IsNamed ofName
  rw [if_neg hstep, hsuffix]
  constructor
  · rintro h rfl
    simp at h
  · intro hlist
    have hchars : list.toList ≠ [] := by simpa using hlist
    cases hcases : list.toList with
    | nil => exact absurd hcases hchars
    | cons first rest =>
        show entry (String.ofList (first :: rest)) = entry list
        rw [← hcases, String.ofList_toList]

end Section

theorem ofList_eq_iff {name : List Char} {text : String} :
    String.ofList name = text ↔ name = text.toList := by
  constructor
  · rintro rfl
    exact (String.toList_ofList).symm
  · rintro rfl
    exact String.ofList_toList

theorem ofList_eq_empty_iff {name : List Char} : String.ofList name = "" ↔ name = [] :=
  ofList_eq_iff

namespace Marker

/-- A marker's section is one that a label names. -/
def IsNamed : Marker → Prop
  | opens opened => opened.IsNamed
  | closes closed => closed.IsNamed
  | _ => True

theorem isNamed_ofOpening (name : List Char) : (ofOpening name).IsNamed := by
  unfold ofOpening
  split
  · trivial
  · split
    · trivial
    · exact Section.isNamed_ofName name

theorem isNamed_ofClosing (name : List Char) : (ofClosing name).IsNamed := by
  unfold ofClosing
  split
  · trivial
  · split
    · trivial
    · exact Section.isNamed_ofName name

theorem isNamed_ofLabel (label : String) : (ofLabel label).IsNamed := by
  unfold ofLabel
  split
  · exact isNamed_ofOpening _
  · exact isNamed_ofClosing _
  · trivial

/-! ## The labels of each marker -/

theorem ofLabel_begin (name : String) : ofLabel ("begin-" ++ name) = ofOpening name.toList := by
  have hbegin : "begin-".toList.isPrefixOf? ("begin-" ++ name).toList = some name.toList := by
    rw [List.isPrefixOf?_eq_some_iff_append_eq, String.toList_append]
  unfold ofLabel
  rw [hbegin]

theorem ofLabel_end (name : String) : ofLabel ("end-" ++ name) = ofClosing name.toList := by
  have hend : "end-".toList.isPrefixOf? ("end-" ++ name).toList = some name.toList := by
    rw [List.isPrefixOf?_eq_some_iff_append_eq, String.toList_append]
  -- No label has both words in front.
  have hbegin : "begin-".toList.isPrefixOf? ("end-" ++ name).toList = none := by
    rw [String.toList_append]
    rfl
  unfold ofLabel
  rw [hend, hbegin]

/-- A label that marks something begins with one of two words. -/
theorem ofLabel_cases (label : String) :
    (∃ name : String, label = "begin-" ++ name ∧ ofLabel label = ofOpening name.toList) ∨
      (∃ name : String, label = "end-" ++ name ∧ ofLabel label = ofClosing name.toList) ∨
        ofLabel label = remark := by
  cases hbegin : "begin-".toList.isPrefixOf? label.toList with
  | some name =>
      have happend := List.append_eq_of_isPrefixOf?_eq_some hbegin
      have hlabel : label = "begin-" ++ String.ofList name := by
        rw [← String.ofList_toList (s := label), ← happend, String.ofList_append]
        rfl
      exact Or.inl ⟨String.ofList name, hlabel, hlabel ▸ ofLabel_begin _⟩
  | none =>
      cases hend : "end-".toList.isPrefixOf? label.toList with
      | some name =>
          have happend := List.append_eq_of_isPrefixOf?_eq_some hend
          have hlabel : label = "end-" ++ String.ofList name := by
            rw [← String.ofList_toList (s := label), ← happend, String.ofList_append]
            rfl
          exact Or.inr (Or.inl ⟨String.ofList name, hlabel, hlabel ▸ ofLabel_end _⟩)
      | none =>
          refine Or.inr (Or.inr ?_)
          unfold ofLabel
          rw [hbegin, hend]

/-- What a name after `begin-` marks. -/
theorem ofOpening_cases (name : String) :
    (name = "" ∧ ofOpening name.toList = remark) ∨
      (name = fastStepsName ∧ ofOpening name.toList = beginsFastSteps) ∨
        (name ≠ "" ∧ name ≠ fastStepsName ∧ ∃ opened : Section, opened.IsNamed ∧
          opened.name = name ∧ ofOpening name.toList = opens opened) := by
  by_cases hempty : name = ""
  · subst hempty
    exact Or.inl ⟨rfl, rfl⟩
  · by_cases hfast : name = fastStepsName
    · subst hfast
      exact Or.inr (Or.inl ⟨rfl, rfl⟩)
    · refine Or.inr (Or.inr ⟨hempty, hfast, Section.ofName name.toList,
        Section.isNamed_ofName _, ?_, ?_⟩)
      · rw [Section.name_ofName, String.ofList_toList]
      · unfold ofOpening
        rw [if_neg (by simpa using hempty), if_neg (by simpa [String.toList_inj] using hfast)]

/-- What a name after `end-` marks. -/
theorem ofClosing_cases (name : String) :
    (name = "" ∧ ofClosing name.toList = remark) ∨
      (name = fastStepsName ∧ ofClosing name.toList = endsFastSteps) ∨
        (name ≠ "" ∧ name ≠ fastStepsName ∧ ∃ closed : Section, closed.IsNamed ∧
          closed.name = name ∧ ofClosing name.toList = closes closed) := by
  by_cases hempty : name = ""
  · subst hempty
    exact Or.inl ⟨rfl, rfl⟩
  · by_cases hfast : name = fastStepsName
    · subst hfast
      exact Or.inr (Or.inl ⟨rfl, rfl⟩)
    · refine Or.inr (Or.inr ⟨hempty, hfast, Section.ofName name.toList,
        Section.isNamed_ofName _, ?_, ?_⟩)
      · rw [Section.name_ofName, String.ofList_toList]
      · unfold ofClosing
        rw [if_neg (by simpa using hempty), if_neg (by simpa [String.toList_inj] using hfast)]

/-- The label that opens a section is `begin-` with its name. -/
theorem ofLabel_eq_opens_iff {label : String} {opened : Section} :
    ofLabel label = opens opened ↔
      opened.IsNamed ∧ opened.name ≠ "" ∧ opened.name ≠ fastStepsName ∧
        label = "begin-" ++ opened.name := by
  constructor
  · intro h
    rcases ofLabel_cases label with ⟨name, hlabel, hmarker⟩ | ⟨name, -, hmarker⟩ | hmarker
    · rw [hmarker] at h
      rcases ofOpening_cases name with ⟨-, hname⟩ | ⟨-, hname⟩ | ⟨hne, hfast, other, hnamed, rfl, hname⟩
      · rw [hname] at h
        cases h
      · rw [hname] at h
        cases h
      · rw [hname] at h
        cases h
        exact ⟨hnamed, hne, hfast, hlabel⟩
    · rw [hmarker] at h
      rcases ofClosing_cases name with ⟨-, hname⟩ | ⟨-, hname⟩ | ⟨-, -, other, -, -, hname⟩ <;>
        rw [hname] at h <;> cases h
    · rw [hmarker] at h
      cases h
  · rintro ⟨hnamed, hne, hfast, rfl⟩
    rw [ofLabel_begin]
    unfold ofOpening
    rw [if_neg (by simpa using hne), if_neg (by simpa [String.toList_inj] using hfast), hnamed]

/-- The label that closes a section is `end-` with its name. -/
theorem label_of_closes {label : String} {closed : Section} (h : ofLabel label = closes closed) :
    label = "end-" ++ closed.name := by
  rcases ofLabel_cases label with ⟨name, -, hmarker⟩ | ⟨name, hlabel, hmarker⟩ | hmarker
  · rw [hmarker] at h
    rcases ofOpening_cases name with ⟨-, hname⟩ | ⟨-, hname⟩ | ⟨-, -, other, -, -, hname⟩ <;>
      rw [hname] at h <;> cases h
  · rw [hmarker] at h
    rcases ofClosing_cases name with ⟨-, hname⟩ | ⟨-, hname⟩ | ⟨-, -, other, -, rfl, hname⟩
    · rw [hname] at h
      cases h
    · rw [hname] at h
      cases h
    · rw [hname] at h
      cases h
      exact hlabel
  · rw [hmarker] at h
    cases h

theorem ofLabel_eq_opens_step {label : String} :
    ofLabel label = opens .step ↔ label = "begin-step-attempt" := by
  rw [ofLabel_eq_opens_iff]
  constructor
  · rintro ⟨-, -, -, hlabel⟩
    exact hlabel
  · intro hlabel
    exact ⟨Section.isNamed_step, by decide, by decide, hlabel⟩

theorem ofLabel_eq_opens_entry {label list : String} :
    ofLabel label = opens (.entry list) ↔ list ≠ "" ∧ label = "begin-" ++ list ++ "-list" := by
  rw [ofLabel_eq_opens_iff, Section.isNamed_entry_iff, String.append_assoc]
  constructor
  · rintro ⟨hlist, -, -, hlabel⟩
    exact ⟨hlist, hlabel⟩
  · rintro ⟨hlist, hlabel⟩
    refine ⟨hlist, ?_, ?_, hlabel⟩
    · intro hname
      -- The suffix alone is longer than no name at all.
      have hlength := congrArg String.length hname
      simp [Section.name, Section.listSuffix] at hlength
    · intro hname
      have hends : Section.listSuffix.toList <:+ fastStepsName.toList := by
        rw [← hname, Section.name, String.toList_append]
        exact List.suffix_append _ _
      exact absurd hends (by decide)

theorem ofLabel_eq_beginsFastSteps {label : String} :
    ofLabel label = beginsFastSteps ↔ label = "begin-fast-steps" := by
  constructor
  · intro h
    rcases ofLabel_cases label with ⟨name, hlabel, hmarker⟩ | ⟨name, -, hmarker⟩ | hmarker
    · rw [hmarker] at h
      rcases ofOpening_cases name with ⟨-, hname⟩ | ⟨hfast, -⟩ | ⟨-, -, other, -, -, hname⟩
      · rw [hname] at h
        cases h
      · rw [hlabel, hfast]
        rfl
      · rw [hname] at h
        cases h
    · rw [hmarker] at h
      rcases ofClosing_cases name with ⟨-, hname⟩ | ⟨-, hname⟩ | ⟨-, -, other, -, -, hname⟩ <;>
        rw [hname] at h <;> cases h
    · rw [hmarker] at h
      cases h
  · rintro rfl
    exact ofLabel_begin fastStepsName

theorem ofLabel_eq_endsFastSteps {label : String} :
    ofLabel label = endsFastSteps ↔ label = "end-fast-steps" := by
  constructor
  · intro h
    rcases ofLabel_cases label with ⟨name, -, hmarker⟩ | ⟨name, hlabel, hmarker⟩ | hmarker
    · rw [hmarker] at h
      rcases ofOpening_cases name with ⟨-, hname⟩ | ⟨-, hname⟩ | ⟨-, -, other, -, -, hname⟩ <;>
        rw [hname] at h <;> cases h
    · rw [hmarker] at h
      rcases ofClosing_cases name with ⟨-, hname⟩ | ⟨hfast, -⟩ | ⟨-, -, other, -, -, hname⟩
      · rw [hname] at h
        cases h
      · rw [hlabel, hfast]
        rfl
      · rw [hname] at h
        cases h
    · rw [hmarker] at h
      cases h
  · rintro rfl
    exact ofLabel_end fastStepsName

end Marker

end SolverLog
