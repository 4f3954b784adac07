import SolverLog.Entries
import SolverLog.Number.Decimal

/-!
# Arguments: options and operands

An argument that starts with two dashes is an option, and the vocabulary of a command says which
there are. All others are operands, but none may start with a dash, except the lone dash.

* A flag stands alone. Any other option takes a value: `--name=value`, where the value may be any
  text, or `--name value`, where it may not start with a dash. The lone dash is such a value, and a
  negative number is one for an option that takes a number.
* No option is given twice.
* After the argument `--` all arguments are operands.

`Arguments.read?` gives nothing for arguments that break a rule.
-/

namespace SolverLog.CommandLine

/-- What an option takes. -/
inductive Takes where
  | nothing
  | value
  | number
deriving DecidableEq, Repr

/-- The options of a command: the name of each, without its dashes, and what it takes. -/
abbrev Vocabulary := List (String × Takes)

/-- An argument in its role. -/
inductive Argument where
  | operand (text : String)
  | option (name value : String)
deriving DecidableEq, Repr

/-- Whether a text starts with a dash and is more than that. -/
def isDashed (text : String) : Bool :=
  match text.toList with
  | '-' :: _ :: _ => true
  | _ => false

/-- Whether a text is a minus sign and a number that starts with a digit and whose exponent, if it
has one, has no sign. -/
def isNegativeNumber (text : String) : Bool :=
  match text.toList with
  | '-' :: unsigned =>
    let (whole, afterWhole) := unsigned.span Char.isDigit
    let (_, exponent) := Number.Decimal.takeFraction afterWhole
    !whole.isEmpty &&
      match exponent with
      | [] => true
      | mark :: digits => (mark = 'e' || mark = 'E') && (Number.natural? digits).isSome
  | _ => false

/-- Whether an argument of its own can be the value of an option. -/
def canBeValue (takes : Takes) (text : String) : Bool :=
  !isDashed text || (takes = .number && isNegativeNumber text)

/-- Takes an option apart: its name, and the value that is attached to it after an equals sign. -/
def splitOption (body : List Char) : String × Option String :=
  match body.span (· ≠ '=') with
  | (name, []) => (String.ofList name, none)
  | (name, _ :: value) => (String.ofList name, some (String.ofList value))

/-- Gives the arguments their roles. -/
def rolesOf? (vocabulary : Vocabulary) : List String → Option (List Argument)
  | [] => some []
  | argument :: rest =>
    if argument = "--" then some (rest.map .operand)
    else
      match "--".toList.isPrefixOf? argument.toList with
      | none =>
        if isDashed argument then none
        else (rolesOf? vocabulary rest).map (.operand argument :: ·)
      | some body =>
        let (name, attached) := splitOption body
        match Entries.value? vocabulary name, attached with
        | none, _ => none
        | some .nothing, some _ => none
        | some .nothing, none => (rolesOf? vocabulary rest).map (.option name "" :: ·)
        | some _, some value => (rolesOf? vocabulary rest).map (.option name value :: ·)
        | some takes, none =>
          match rest with
          | [] => none
          | value :: others =>
            if canBeValue takes value then
              (rolesOf? vocabulary others).map (.option name value :: ·)
            else none

/-- The arguments of a command. -/
structure Arguments where
  operands : List String
  options : Entries String
deriving DecidableEq, Repr

namespace Arguments

/-- Sorts the arguments by their roles. -/
def ofRoles (roles : List Argument) : Arguments where
  operands := roles.filterMap fun
    | .operand text => some text
    | .option .. => none
  options := roles.filterMap fun
    | .operand _ => none
    | .option name value => some (name, value)

/-- Reads the arguments of a command. -/
def read? (vocabulary : Vocabulary) (texts : List String) : Option Arguments :=
  (rolesOf? vocabulary texts).bind fun roles =>
    let arguments := ofRoles roles
    if arguments.options.keys.Nodup then some arguments else none

/-- Whether a flag is given. -/
def has (arguments : Arguments) (name : String) : Bool :=
  (arguments.options.value? name).isSome

/-- The value of an option; none if the option is given and its value cannot be read. -/
def optional? {α : Type} (arguments : Arguments) (read? : List Char → Option α)
    (name : String) : Option (Option α) :=
  match arguments.options.value? name with
  | none => some none
  | some value => (read? value.toList).map some

end Arguments

end SolverLog.CommandLine
