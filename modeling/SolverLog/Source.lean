import SolverLog.Log

/-!
# Logs in files

The content of a file is bytes, which have to be the UTF-8 of a text. Reading a log from a file
fails if the file cannot be read, or if the log has no document; otherwise there may be warnings.
-/

namespace SolverLog

/-- Why the text of a file cannot be read. -/
inductive ReadFailure where
  | notFound
  | notText
  | other (reason : String)
deriving DecidableEq, Repr

/-- What the user is told about a file that cannot be read. -/
def ReadFailure.reason : ReadFailure → String
  | notFound => "No such file or directory (os error 2)"
  | notText => "stream did not contain valid UTF-8"
  | other reason => reason

/-- The content of a file, or why there is none. -/
abbrev FileContent := Except ReadFailure ByteArray

/-- The text of a file. -/
def FileContent.text (content : FileContent) : Except ReadFailure String :=
  content.bind fun bytes =>
    match String.fromUTF8? bytes with
    | some text => .ok text
    | none => .error .notText

/-- Why a file has no document. -/
inductive LoadError where
  | unreadable (failure : ReadFailure)
  | malformed (error : StructureError)
deriving DecidableEq, Repr

/-- The message for the user. -/
def LoadError.message : LoadError → String
  | unreadable failure => "failed to read log file: " ++ failure.reason
  | malformed error => error.message

/-- Reads the log in a file. -/
def Document.ofFile (options : Options) (content : FileContent) : Except LoadError Document :=
  match content.text with
  | .ok text => (Document.ofText options text).mapError LoadError.malformed
  | .error failure => .error (.unreadable failure)

/-- The warnings of reading the log in a file. -/
def FileContent.warnings (options : Options) (content : FileContent) : List Builder.Event :=
  match content.text with
  | .ok text => (traceLines options (Text.lines text)).filter (·.severity = .warn)
  | .error _ => []

end SolverLog
