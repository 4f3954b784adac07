import Mathlib.Data.List.Forall2
import SolverLog.CommandLine.Answer
import SolverLog.Proofs.ReadBack
import SolverLog.Proofs.Store

/-!
# How command lines are read

A command line is a list of arguments, each written as one text or as two (`Argument.Written`).
Arguments that are written one after the other are read as these (`Arguments.read?_flatten`), and a
command takes its options from them in any order. So a command line that asks for a document gives the
command with just the options that stand on it, wherever they stand (`Command.ofArguments?_parse`), and
its answer is that of the command (`answer_parse`).
-/

namespace SolverLog

namespace Entries

variable {α : Type} {entries others : Entries α}

/-- What is at a key does not depend on the order of the keys. -/
theorem value?_perm (hkeys : entries.keys.Nodup) (h : entries.Perm others) (key : String) :
    entries.value? key = others.value? key := by
  have hothers : others.keys.Nodup := (h.map Prod.fst).nodup_iff.mp hkeys
  cases hvalue : entries.value? key with
  | some value => exact (value?_of_mem hothers (h.subset (mem_of_value? hvalue))).symm
  | none =>
      cases hother : others.value? key with
      | none => rfl
      | some value =>
          have hfound := value?_of_mem hkeys (h.symm.subset (mem_of_value? hother))
          cases hvalue.symm.trans hfound

end Entries

namespace CommandLine

/-! ## Arguments -/

/-- A text can be the name of an option. -/
structure IsName (name : String) : Prop where
  ne_empty : name ≠ ""
  no_equals : '=' ∉ name.toList

/-- The ways to write an argument, unless it stands behind the argument `--`. -/
inductive Argument.Written (vocabulary : Vocabulary) : Argument → List String → Prop where
  | operand {text : String} (htext : isDashed text = false) : Written vocabulary (.operand text) [text]
  | flag {name : String} (hname : IsName name)
      (hoption : Entries.value? vocabulary name = some .nothing) :
      Written vocabulary (.option name "") ["--" ++ name]
  | attached {name value : String} {takes : Takes} (hname : IsName name)
      (hoption : Entries.value? vocabulary name = some takes) (htakes : takes ≠ .nothing) :
      Written vocabulary (.option name value) ["--" ++ name ++ "=" ++ value]
  | apart {name value : String} {takes : Takes} (hname : IsName name)
      (hoption : Entries.value? vocabulary name = some takes) (htakes : takes ≠ .nothing)
      (hvalue : canBeValue takes value) : Written vocabulary (.option name value) ["--" ++ name, value]

variable {vocabulary : Vocabulary} {argument : Argument} {name value : String}

/-- An operand does not start with two dashes. -/
theorem isPrefixOf?_of_isDashed {text : String} (h : isDashed text = false) :
    "--".toList.isPrefixOf? text.toList = none := by
  unfold isDashed at h
  split at h
  · cases h
  · next hdashed =>
      match hchars : text.toList with
      | [] => rfl
      | [c] => cases hc : '-' == c <;> simp [List.isPrefixOf?, hc]
      | c :: d :: rest =>
          have hc : '-' ≠ c := by
            rintro rfl
            exact hdashed d rest hchars
          simp [List.isPrefixOf?, hc]

theorem isPrefixOf?_option (body : String) :
    "--".toList.isPrefixOf? ("--" ++ body).toList = some body.toList := by
  simp [String.toList_append, List.isPrefixOf?]

theorem IsName.not_equals (h : IsName name) : ∀ c ∈ name.toList, decide (c ≠ '=') = true := by
  intro c hc
  have hne : c ≠ '=' := by
    rintro rfl
    exact h.no_equals hc
  exact decide_eq_true hne

theorem IsName.splitOption (h : IsName name) :
    CommandLine.splitOption name.toList = (name, none) := by
  have hspan : (name.toList ++ []).span (· ≠ '=') = (name.toList, []) :=
    Number.span_append h.not_equals (by simp)
  rw [List.append_nil] at hspan
  rw [CommandLine.splitOption, hspan]
  simp only [String.ofList_toList]

theorem IsName.splitOption_attached (h : IsName name) (value : String) :
    CommandLine.splitOption (name ++ ("=" ++ value)).toList = (name, some value) := by
  have hspan : (name.toList ++ '=' :: value.toList).span (· ≠ '=') =
      (name.toList, '=' :: value.toList) := Number.span_append h.not_equals (by simp)
  have htext : (name ++ ("=" ++ value)).toList = name.toList ++ '=' :: value.toList := by
    simp [String.toList_append]
  rw [CommandLine.splitOption, htext, hspan]
  simp only [String.ofList_toList]

/-- What an argument is written as is read as the argument, whatever follows. -/
theorem Argument.Written.rolesOf?_append {texts : List String}
    (h : Argument.Written vocabulary argument texts) (rest : List String) :
    rolesOf? vocabulary (texts ++ rest) = (rolesOf? vocabulary rest).map (argument :: ·) := by
  cases h with
  | @operand text htext =>
      have hne : text ≠ "--" := by
        rintro rfl
        cases htext
      rw [List.singleton_append, rolesOf?, if_neg hne, isPrefixOf?_of_isDashed htext]
      simp [htext]
  | @flag name hname hoption =>
      have hne : "--" ++ name ≠ "--" := by
        simpa using hname.ne_empty
      rw [List.singleton_append, rolesOf?, if_neg hne, isPrefixOf?_option]
      simp [hname.splitOption, hoption]
  | @attached name value takes hname hoption htakes =>
      have hne : "--" ++ (name ++ ("=" ++ value)) ≠ "--" := by
        simp
      rw [String.append_assoc, String.append_assoc, List.singleton_append, rolesOf?, if_neg hne,
        isPrefixOf?_option]
      simp only [hname.splitOption_attached, hoption]
  | @apart name value takes hname hoption htakes hvalue =>
      have hne : "--" ++ name ≠ "--" := by
        simpa using hname.ne_empty
      rw [List.cons_append, List.singleton_append, rolesOf?, if_neg hne, isPrefixOf?_option]
      simp only [hname.splitOption, hoption, hvalue, if_true]

variable {arguments : List Argument} {texts : List (List String)}

theorem rolesOf?_flatten (h : List.Forall₂ (Argument.Written vocabulary) arguments texts) :
    rolesOf? vocabulary texts.flatten = some arguments := by
  induction h with
  | nil => rfl
  | cons hwritten _ ih => rw [List.flatten_cons, hwritten.rolesOf?_append, ih, Option.map_some]

/-- Arguments that are written one after the other are read as these, if no option is given twice. -/
theorem Arguments.read?_flatten (h : List.Forall₂ (Argument.Written vocabulary) arguments texts)
    (hoptions : (ofRoles arguments).options.keys.Nodup) :
    read? vocabulary texts.flatten = some (ofRoles arguments) := by
  rw [read?, rolesOf?_flatten h, Option.bind_some]
  exact if_pos hoptions

theorem Arguments.ofRoles_perm {others : List Argument} (h : arguments.Perm others) :
    (ofRoles arguments).operands.Perm (ofRoles others).operands ∧
      (ofRoles arguments).options.Perm (ofRoles others).options :=
  ⟨h.filterMap _, h.filterMap _⟩

/-! ## The command that writes a document -/

namespace Command

/-- Flags that are given if they are on. -/
def flagArguments (flags : List (String × Bool)) : List Argument :=
  (flags.filter (·.2)).map fun (name, _) => .option name ""

/-- The arguments that ask for a document. -/
def parseArguments (path : String) (indicator : Option String) (strict compact globals : Bool) :
    List Argument :=
  .operand path :: (indicator.map (Argument.option "array-indicator")).toList ++
    flagArguments [("strict", strict), ("compact", compact), ("globals", globals)]

variable {path : String} {indicator : Option String} {strict compact globals : Bool}

theorem nodup_keys_parseArguments :
    (Arguments.ofRoles (parseArguments path indicator strict compact globals)).options.keys.Nodup := by
  cases indicator <;> cases strict <;> cases compact <;> cases globals <;>
    simp [parseArguments, flagArguments, Arguments.ofRoles, Entries.keys]

theorem parse?_parseArguments (hpath : path ≠ "") :
    parse? (.ofRoles (parseArguments path indicator strict compact globals)) =
      some (parse path ⟨indicator.getD Payload.defaultIndicator, strict⟩ compact globals) := by
  cases indicator <;> cases strict <;> cases compact <;> cases globals <;> exact if_neg hpath

/-- The order of the options makes no difference. -/
theorem parse?_congr {first second : Arguments} (hoperands : first.operands = second.operands)
    (hoptions : ∀ name, first.options.value? name = second.options.value? name) :
    parse? first = parse? second := by
  simp only [parse?, hoperands, readingOptions, Arguments.has, hoptions]

/-- A command line that asks for a document is read as the command that writes it, however the
arguments are written, and in whatever order the file and the options stand. -/
theorem ofArguments?_parse (hpath : path ≠ "")
    (hwritten : List.Forall₂ (Argument.Written parseVocabulary) arguments texts)
    (harguments : arguments.Perm (parseArguments path indicator strict compact globals)) :
    ofArguments? ("parse" :: texts.flatten) =
      some (parse path ⟨indicator.getD Payload.defaultIndicator, strict⟩ compact globals) := by
  obtain ⟨hoperands, hoptions⟩ := Arguments.ofRoles_perm harguments
  have hkeys : (Arguments.ofRoles arguments).options.keys.Nodup :=
    (hoptions.map Prod.fst).nodup_iff.mpr nodup_keys_parseArguments
  have hoperand : (Arguments.ofRoles (parseArguments path indicator strict compact globals)).operands =
      [path] := by
    cases indicator <;> cases strict <;> cases compact <;> cases globals <;> rfl
  rw [ofArguments?, Arguments.read?_flatten hwritten hkeys, Option.bind_some,
    ← parse?_parseArguments hpath]
  refine parse?_congr ?_ (Entries.value?_perm hkeys hoptions)
  rw [hoperand] at hoperands ⊢
  exact hoperands.eq_singleton

end Command

/-- The answer to such a command line is that of the command for the content of its file. -/
theorem answer_parse (hpath : path ≠ "")
    (hwritten : List.Forall₂ (Argument.Written Command.parseVocabulary) arguments texts)
    (harguments : arguments.Perm (Command.parseArguments path indicator strict compact globals))
    (contents : String → FileContent) :
    answer ("parse" :: texts.flatten) contents =
      (Command.parse path ⟨indicator.getD Payload.defaultIndicator, strict⟩ compact globals).answer
        (contents path) := by
  rw [answer, Command.ofArguments?_parse hpath hwritten harguments]
  rfl

example :
    Command.ofArguments? ["parse", "--globals", "run.log", "--array-indicator", "[]", "--compact"] =
      some (.parse "run.log" ⟨"[]", false⟩ true true) :=
  rfl

end CommandLine

end SolverLog
