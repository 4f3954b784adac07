import Mathlib.Data.List.Forall2
import SolverLog.Builder.Trace
import SolverLog.Proofs.Digits
import SolverLog.Proofs.ReadBack

/-!
# What the lines of a trace say

`Says` gives the texts of a trace: a level, and a message that names a line, a section, a depth or a
number. Every event is written as one of them (`says_text`), and no text is about two events
(`Says.unique`), although the name of a section may hold anything, so also the words that come behind
it. The digits at the front of a text and those at its end are found again (`repr_append_inj`,
`append_repr_inj`), and what is left are the words around the name.
-/

namespace SolverLog

namespace Number

/-! ## Numbers in texts -/

theorem isDigit_of_mem_repr {n : Nat} {c : Char} (h : c ∈ (Nat.repr n).toList) : c.isDigit :=
  isDigit_of_mem_toDigits c (Nat.toList_repr ▸ h)

/-- A number at the front of a text ends where the digits end. -/
theorem repr_append_inj {m n : Nat} {s t : String} (hs : ∀ c ∈ s.toList.head?, c.isDigit = false)
    (ht : ∀ c ∈ t.toList.head?, c.isDigit = false) (h : Nat.repr m ++ s = Nat.repr n ++ t) :
    m = n ∧ s = t := by
  have hspan := congrArg (fun text : String => text.toList.span Char.isDigit) h
  simp only [String.toList_append] at hspan
  rw [span_append (fun _ => isDigit_of_mem_repr) hs, span_append (fun _ => isDigit_of_mem_repr) ht,
    Prod.mk.injEq] at hspan
  exact ⟨repr_injective (String.toList_injective hspan.1), String.toList_injective hspan.2⟩

/-- A number at the end of a text starts where the digits start. -/
theorem append_repr_inj {m n : Nat} {s t : String}
    (hs : ∀ c ∈ s.toList.getLast?, c.isDigit = false)
    (ht : ∀ c ∈ t.toList.getLast?, c.isDigit = false) (h : s ++ Nat.repr m = t ++ Nat.repr n) :
    s = t ∧ m = n := by
  have hspan := congrArg (fun text : String => text.toList.reverse.span Char.isDigit) h
  have hdigits (k : Nat) : ∀ c ∈ (Nat.repr k).toList.reverse, c.isDigit :=
    fun c hc => isDigit_of_mem_repr (List.mem_reverse.mp hc)
  simp only [String.toList_append, List.reverse_append] at hspan
  rw [span_append (hdigits m) (by rwa [List.head?_reverse]),
    span_append (hdigits n) (by rwa [List.head?_reverse]), Prod.mk.injEq] at hspan
  obtain ⟨hnumber, htext⟩ := hspan
  exact ⟨String.toList_injective (List.reverse_inj.mp htext),
    repr_injective (String.toList_injective (List.reverse_inj.mp hnumber))⟩

/-- A text that does not start with a digit does not start with a number. -/
theorem repr_append_ne {n : Nat} {words s t : String} {first : Char}
    (hwords : words.toList.head? = some first) (hfirst : first.isDigit = false) :
    Nat.repr n ++ s ≠ words ++ t := by
  intro h
  have hhead := congrArg (fun text : String => text.toList.head?) h
  simp only [String.toList_append, List.head?_append, hwords, Option.some_or] at hhead
  cases hdigits : (Nat.repr n).toList with
  | nil => exact Nat.toDigits_ne_nil (Nat.toList_repr.symm.trans hdigits)
  | cons digit rest =>
      rw [hdigits, List.head?_cons, Option.some_or, Option.some.injEq] at hhead
      have hdigit : digit.isDigit := isDigit_of_mem_repr (hdigits ▸ List.mem_cons_self)
      rw [hhead, hfirst] at hdigit
      cases hdigit

end Number

namespace Builder

open Number

/-! ## The texts -/

/-- The texts of a trace, and the events that they are about. -/
inductive Says : String → Event → Prop where
  | skipped (line : Nat) :
      Says ("TRACE line " ++ Nat.repr line ++ ": not a log record, skipped") (.skipped line)
  | opened (line : Nat) (name : String) (depth : Nat) :
      Says
        ("DEBUG line " ++ Nat.repr line ++ ": open `" ++ name ++ "` at depth " ++ Nat.repr depth)
        (.opened line name depth)
  | closed (line : Nat) (name : String) (depth : Nat) :
      Says
        ("DEBUG line " ++ Nat.repr line ++ ": close `" ++ name ++ "` at depth " ++ Nat.repr depth)
        (.closed line name depth)
  | fastSteps (line level : Nat) :
      Says ("DEBUG line " ++ Nat.repr line ++ ": fast steps, time level " ++ Nat.repr level)
        (.fastSteps line level)
  | neverClosed (name : String) (line : Nat) :
      Says ("WARN section `" ++ name ++ "` opened on line " ++ Nat.repr line ++ " is never closed")
        (.neverClosed name line)
  | fastStepsNeverClosed (count : Nat) :
      Says ("WARN " ++ Nat.repr count ++ " fast-steps region(s) never closed")
        (.fastStepsNeverClosed count)

/-- What a text says is what the event says. -/
theorem Says.text_eq {text : String} {event : Event} (h : Says text event) : text = event.text := by
  have htrace : "TRACE line " = "TRACE" ++ " " ++ "line " := rfl
  have hdebug : "DEBUG line " = "DEBUG" ++ " " ++ "line " := rfl
  have hsection : "WARN section `" = "WARN" ++ " " ++ "section `" := rfl
  have hwarn : "WARN " = "WARN" ++ " " := rfl
  cases h <;>
    simp only [Event.text, Event.severity, Severity.name, Event.message, htrace, hdebug, hsection,
      hwarn, String.append_assoc]

/-- Every event is written in one of these ways. -/
theorem says_text (event : Event) : Says event.text event := by
  have hsays : ∃ text, Says text event := by
    cases event with
    | skipped line => exact ⟨_, .skipped line⟩
    | opened line name depth => exact ⟨_, .opened line name depth⟩
    | closed line name depth => exact ⟨_, .closed line name depth⟩
    | fastSteps line level => exact ⟨_, .fastSteps line level⟩
    | neverClosed name line => exact ⟨_, .neverClosed name line⟩
    | fastStepsNeverClosed count => exact ⟨_, .fastStepsNeverClosed count⟩
  obtain ⟨text, h⟩ := hsays
  rwa [← h.text_eq]

/-! ## A text is about one event -/

theorem Severity.append_inj {first second : Severity} {s t : String}
    (h : first.name ++ " " ++ s = second.name ++ " " ++ t) : first = second ∧ s = t := by
  have hchars := congrArg String.toList h
  cases first <;> cases second <;> simp [name] at hchars <;>
    exact ⟨rfl, String.toList_injective hchars⟩

/-- A line is named at the front of a message, and what is said of it comes behind it. -/
theorem line_message_inj {m n : Nat} {s t : String}
    (hs : ∀ c ∈ s.toList.head?, c.isDigit = false) (ht : ∀ c ∈ t.toList.head?, c.isDigit = false)
    (h : "line " ++ (Nat.repr m ++ s) = "line " ++ (Nat.repr n ++ t)) : m = n ∧ s = t :=
  repr_append_inj hs ht ((String.append_right_inj _).mp h)

/-- A number stands at the end of a message, and a name and some words before it. -/
theorem name_number_inj {name name' words : String} {m n : Nat} {last : Char}
    (hwords : words.toList.getLast? = some last) (hlast : last.isDigit = false)
    (h : name ++ (words ++ Nat.repr m) = name' ++ (words ++ Nat.repr n)) : name = name' ∧ m = n := by
  have hbefore (s : String) : ∀ c ∈ (s ++ words).toList.getLast?, c.isDigit = false := by
    simp [List.getLast?_append, hwords, hlast]
  rw [← String.append_assoc, ← String.append_assoc] at h
  obtain ⟨htext, hnumber⟩ := append_repr_inj (hbefore name) (hbefore name') h
  exact ⟨(String.append_left_inj _).mp htext, hnumber⟩

/-- A message about a section names a line, the section and its depth. -/
theorem section_message_inj {act name name' : String} {line line' depth depth' : Nat}
    (hact : ∀ s : String, ∀ c ∈ (act ++ s).toList.head?, c.isDigit = false)
    (h : "line " ++ (Nat.repr line ++ (act ++ (name ++ ("` at depth " ++ Nat.repr depth)))) =
      "line " ++ (Nat.repr line' ++ (act ++ (name' ++ ("` at depth " ++ Nat.repr depth'))))) :
    line = line' ∧ name = name' ∧ depth = depth' := by
  obtain ⟨hline, hsection⟩ := line_message_inj (hact _) (hact _) h
  exact ⟨hline, name_number_inj rfl rfl ((String.append_right_inj act).mp hsection)⟩

/-- Events that matter alike and have one message are the same. -/
theorem Event.eq_of_message_eq {event other : Event} (hseverity : event.severity = other.severity)
    (h : event.message = other.message) : event = other := by
  -- Different acts on one line already differ in the word behind the number of the line.
  cases event with
  | skipped line =>
      cases other with
      | skipped line' =>
          simp only [message, String.append_assoc] at h
          rw [(line_message_inj (by simp) (by simp) h).1]
      | opened | closed | fastSteps | neverClosed | fastStepsNeverClosed => cases hseverity
  | opened line name depth =>
      cases other with
      | opened line' name' depth' =>
          simp only [message, String.append_assoc] at h
          obtain ⟨rfl, rfl, rfl⟩ := section_message_inj (by simp) h
          rfl
      | closed | fastSteps =>
          simp only [message, String.append_assoc] at h
          have hact := (line_message_inj (by simp) (by simp) h).2
          simp [← String.toList_inj] at hact
      | skipped | neverClosed | fastStepsNeverClosed => cases hseverity
  | closed line name depth =>
      cases other with
      | closed line' name' depth' =>
          simp only [message, String.append_assoc] at h
          obtain ⟨rfl, rfl, rfl⟩ := section_message_inj (by simp) h
          rfl
      | opened | fastSteps =>
          simp only [message, String.append_assoc] at h
          have hact := (line_message_inj (by simp) (by simp) h).2
          simp [← String.toList_inj] at hact
      | skipped | neverClosed | fastStepsNeverClosed => cases hseverity
  | fastSteps line level =>
      cases other with
      | fastSteps line' level' =>
          simp only [message, String.append_assoc] at h
          obtain ⟨rfl, hlevel⟩ := line_message_inj (by simp) (by simp) h
          rw [repr_injective ((String.append_right_inj _).mp hlevel)]
      | opened | closed =>
          simp only [message, String.append_assoc] at h
          have hact := (line_message_inj (by simp) (by simp) h).2
          simp [← String.toList_inj] at hact
      | skipped | neverClosed | fastStepsNeverClosed => cases hseverity
  | neverClosed name line =>
      cases other with
      | neverClosed name' line' =>
          simp only [message] at h
          rw [String.append_left_inj] at h
          simp only [String.append_assoc, String.append_right_inj] at h
          obtain ⟨rfl, rfl⟩ := name_number_inj rfl rfl h
          rfl
      | fastStepsNeverClosed count =>
          simp only [message, String.append_assoc] at h
          exact absurd h.symm (repr_append_ne rfl rfl)
      | skipped | opened | closed | fastSteps => cases hseverity
  | fastStepsNeverClosed count =>
      cases other with
      | fastStepsNeverClosed count' =>
          rw [repr_injective ((String.append_left_inj _).mp h)]
      | neverClosed name line =>
          simp only [message, String.append_assoc] at h
          exact absurd h (repr_append_ne rfl rfl)
      | skipped | opened | closed | fastSteps => cases hseverity

/-- A text says only one thing. -/
theorem Says.unique {text : String} {event other : Event} (h : Says text event)
    (hother : Says text other) : event = other := by
  have htext : event.text = other.text := h.text_eq.symm.trans hother.text_eq
  obtain ⟨hseverity, hmessage⟩ := Severity.append_inj htext
  exact Event.eq_of_message_eq hseverity hmessage

/-- The texts of some events are about these events and about no others. -/
theorem forall₂_says_iff {events others : List Event} :
    List.Forall₂ Says (events.map Event.text) others ↔ others = events := by
  rw [List.forall₂_map_left_iff]
  constructor
  · intro h
    induction h with
    | nil => rfl
    | @cons event other _ _ hsays _ ih => rw [ih, hsays.unique (says_text event)]
  · rintro rfl
    exact List.forall₂_same.mpr fun event _ => says_text event

end Builder

end SolverLog
