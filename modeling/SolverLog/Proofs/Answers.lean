import SolverLog.CommandLine.Answer
import SolverLog.Proofs.Tracing

/-!
# Files with a document, and answers for them

A file has a document if it can be read, its bytes are a text and that text is a log without a
structure error (`Document.ofFile_eq_ok_iff`); in all other cases it has none
(`Document.ofFile_eq_error_iff`). A command is answered with exit code 0 just if its file has a document
(`CommandLine.Command.exit_answer_eq_zero_iff`), and otherwise with code 1, no output and an error
that does not depend on what the command writes.

The warnings are about what is open at the end of the log (`FileContent.warnings_of_ok`), so there are
none for a file without a document (`FileContent.warnings_of_noDocument`).
-/

namespace SolverLog

/-- The file has no document. -/
inductive FileContent.NoDocument (options : Options) : FileContent → Prop where
  /-- It is missing, or cannot be read for another reason. -/
  | unreadable (failure : ReadFailure) : NoDocument options (.error failure)
  | notText {bytes : ByteArray} (h : ¬bytes.IsValidUTF8) : NoDocument options (.ok bytes)
  | malformed {text : String} {error : StructureError}
      (h : Document.ofText options text = .error error) : NoDocument options (.ok text.toUTF8)

theorem FileContent.text_ok (bytes : ByteArray) :
    FileContent.text (.ok bytes) = (String.fromUTF8? bytes).elim (.error .notText) .ok := by
  unfold FileContent.text
  dsimp only [Except.bind]
  cases String.fromUTF8? bytes with
  | none => rfl
  | some text => rfl

/-- What a file holds is a text if its bytes are those of the text. -/
theorem FileContent.text_eq_ok_iff {content : FileContent} {text : String} :
    content.text = .ok text ↔ content = .ok text.toUTF8 := by
  cases content with
  | error failure =>
      constructor
      · intro h
        cases h
      · intro h
        cases h
  | ok bytes =>
      rw [text_ok]
      unfold String.fromUTF8?
      by_cases hvalid : bytes.IsValidUTF8
      · rw [dif_pos hvalid]
        constructor
        · intro h
          cases h
          rfl
        · intro h
          cases h
          rfl
      · rw [dif_neg hvalid]
        constructor
        · intro h
          cases h
        · intro h
          cases h
          exact absurd text.isValidUTF8 hvalid

namespace Document

variable {options : Options} {content : FileContent}

theorem ofFile_eq_ok_iff {document : Document} :
    ofFile options content = .ok document ↔
      ∃ text, content = .ok text.toUTF8 ∧ ofText options text = .ok document := by
  simp only [← FileContent.text_eq_ok_iff]
  unfold ofFile
  cases htext : content.text with
  | error failure =>
      constructor
      · intro h
        cases h
      · rintro ⟨text, h, -⟩
        cases h
  | ok text =>
      dsimp only
      constructor
      · intro h
        cases hread : ofText options text with
        | error error =>
            rw [hread] at h
            cases h
        | ok read =>
            rw [hread] at h
            cases h
            exact ⟨text, rfl, hread⟩
      · rintro ⟨other, hother, hread⟩
        cases hother
        rw [hread]
        rfl

theorem ofFile_eq_error_iff :
    (∃ error, ofFile options content = .error error) ↔ content.NoDocument options := by
  constructor
  · rintro ⟨error, herror⟩
    cases content with
    | error failure => exact .unreadable failure
    | ok bytes =>
        by_cases hvalid : bytes.IsValidUTF8
        · have hbytes : bytes = (String.fromUTF8 bytes hvalid).toUTF8 := rfl
          rw [hbytes] at herror ⊢
          cases hread : ofText options (String.fromUTF8 bytes hvalid) with
          | error malformed => exact .malformed hread
          | ok document =>
              have hok := ofFile_eq_ok_iff.mpr ⟨_, rfl, hread⟩
              cases hok.symm.trans herror
        · exact .notText hvalid
  · intro hnone
    cases hfile : ofFile options content with
    | error error => exact ⟨error, rfl⟩
    | ok document =>
        obtain ⟨text, hcontent, hread⟩ := ofFile_eq_ok_iff.mp hfile
        cases hnone with
        | unreadable failure => cases hcontent
        | notText hvalid =>
            cases hcontent
            exact absurd text.isValidUTF8 hvalid
        | malformed hmalformed =>
            cases String.toByteArray_inj.mp (Except.ok.inj hcontent)
            cases hread.symm.trans hmalformed

end Document

/-! ## Warnings -/

namespace FileContent

open Builder

variable {options : Options} {content : FileContent}

/-- The warnings for a file with a document name the sections that are open at the end of its log,
innermost first, and then the number of open regions of fast steps. -/
theorem warnings_of_ok {document : Document} (h : Document.ofFile options content = .ok document) :
    ∃ text s, content = .ok text.toUTF8 ∧
      runLines options.arrayIndicator 1 (Text.lines text) .initial = .reached s ∧
        content.warnings options = s.endEvents := by
  obtain ⟨text, hcontent, hread⟩ := Document.ofFile_eq_ok_iff.mp h
  obtain ⟨s, hrun, -⟩ := reached_of_ofLines hread
  have hfinish : s.finish options = .ok document := by
    unfold Document.ofText Document.ofLines at hread
    rwa [hrun] at hread
  have hquiet := (Follows.initial.reached rfl hrun).quiet
  refine ⟨text, s, hcontent, hrun, ?_⟩
  rw [warnings, text_eq_ok_iff.mpr hcontent]
  simp only [traceLines, hrun, hfinish]
  exact filter_warn_append hquiet s.severity_endEvents

theorem warnings_of_noDocument (h : content.NoDocument options) : content.warnings options = [] := by
  cases h with
  | unreadable failure => rfl
  | @notText bytes hvalid =>
      unfold warnings
      rw [text_ok, String.fromUTF8?, dif_neg hvalid]
      rfl
  | @malformed text error hread =>
      rw [warnings, text_eq_ok_iff.mpr rfl]
      have hquiet := (faithful_traceLines options (Text.lines text)).quiet error hread
      simpa [List.filter_eq_nil_iff] using hquiet

end FileContent

namespace CommandLine

/-- A command whose file has no document fails with a message. -/
theorem Answer.exists_ofLoadError_eq (path : String) (error : LoadError) :
    ∃ message, ofLoadError path error = .failure message := by
  cases error with
  | unreadable failure => exact ⟨_, rfl⟩
  | malformed error => exact ⟨_, rfl⟩

namespace Command

variable {command : Command} {content : FileContent}

theorem answer_of_ok {document : Document}
    (h : Document.ofFile command.options content = .ok document) :
    command.answer content =
      .success (command.output document) (content.warnings command.options) := by
  unfold answer
  rw [h]

theorem answer_of_error {error : LoadError}
    (h : Document.ofFile command.options content = .error error) :
    command.answer content = .ofLoadError command.path error := by
  unfold answer
  rw [h]

/-- A command succeeds if its file has a document. -/
theorem exit_answer_eq_zero_iff :
    (command.answer content).exit = 0 ↔
      ∃ document, Document.ofFile command.options content = .ok document := by
  cases hfile : Document.ofFile command.options content with
  | error error =>
      obtain ⟨message, hanswer⟩ := Answer.exists_ofLoadError_eq command.path error
      simp [answer_of_error hfile, hanswer, Answer.exit]
  | ok document => simp [answer_of_ok hfile, Answer.exit]

/-- The warnings of a command are those of the log in its file, whether or not it succeeds. -/
theorem warnings_answer : (command.answer content).warnings = content.warnings command.options := by
  cases hfile : Document.ofFile command.options content with
  | error error =>
      obtain ⟨message, hanswer⟩ := Answer.exists_ofLoadError_eq command.path error
      have hnone := Document.ofFile_eq_error_iff.mp ⟨error, hfile⟩
      rw [answer_of_error hfile, hanswer, FileContent.warnings_of_noDocument hnone]
      rfl
  | ok document =>
      rw [answer_of_ok hfile]
      rfl

end Command

end CommandLine

end SolverLog
