import SolverLog.Json.Schema
import SolverLog.Proofs.Decoded
import SolverLog.Proofs.JsonText

/-!
# The JSON of a document is unambiguous

A document is read back from its JSON (`Document.ofJson?_toJson`), although values are written
without tags, numbers that are not finite as texts, and arrays of values like lists of dictionaries.
So no two documents have one compact text (`Document.compact_toJson_injective`).

Reading back rests on what documents are made of: a text that is not written as a number is not
taken for one, and a list of dictionaries shows by its first element that it is one.
-/

namespace SolverLog

open Number

/-! ## Values -/

mutual

/-- Reads a value from JSON. A text that is written as a number is that number. -/
def Value.ofJson? : Json → Option Value
  | .integer value => some (.integer value)
  | .number negative magnitude => some (.real (.finite negative magnitude))
  | .text words =>
    match Binary64.read? words.toList with
    | some number => some (.real number)
    | none => some (.text words)
  | .list items => (Value.itemsOfJson? items).map .array
  | .null | .object _ => none

/-- Reads a list of values from JSON. -/
def Value.itemsOfJson? : List Json → Option (List Value)
  | [] => some []
  | item :: rest => do
    let value ← Value.ofJson? item
    let values ← Value.itemsOfJson? rest
    return value :: values

end

theorem Value.itemsOfJson?_itemsToJson {items : List Value}
    (h : ∀ item ∈ items, Value.ofJson? item.toJson = some item) :
    Value.itemsOfJson? (Value.itemsToJson items) = some items := by
  induction items with
  | nil => rfl
  | cons item rest ih =>
    have hitem := h item List.mem_cons_self
    have hrest := ih fun other hother => h other (List.mem_cons_of_mem item hother)
    simp [Value.itemsToJson, Value.itemsOfJson?, hitem, hrest]

/-- A value is read back from its JSON. -/
theorem Value.ofJson?_toJson {value : Value} (h : value.Decoded) :
    Value.ofJson? value.toJson = some value := by
  induction h with
  | integer value => rfl
  | real number =>
    cases number with
    | finite negative magnitude => rfl
    | nan => simp [Value.toJson, Value.ofJson?, Value.displayStyle.read?_text]
    | infinite negative => simp [Value.toJson, Value.ofJson?, Value.displayStyle.read?_text]
  | text hwords => simp [Value.toJson, Value.ofJson?, hwords]
  | array _ ih => simp [Value.toJson, Value.ofJson?, Value.itemsOfJson?_itemsToJson ih]

/-! ## Dictionaries -/

mutual

/-- Reads a node from JSON. A list that starts with an object is one of dictionaries. -/
def Node.ofJson? : Json → Option Node
  | .object members => (Node.entriesOfJson? members).map .dict
  | .list (.object members :: rest) => do
    let first ← Node.entriesOfJson? members
    let others ← Node.itemsOfJson? rest
    return .list (first :: others)
  | json => (Value.ofJson? json).map .value

/-- Reads the entries of a dictionary from JSON. -/
def Node.entriesOfJson? : List (String × Json) → Option Dict
  | [] => some []
  | (key, json) :: rest => do
    let node ← Node.ofJson? json
    let entries ← Node.entriesOfJson? rest
    return (key, node) :: entries

/-- Reads a list of dictionaries from JSON. -/
def Node.itemsOfJson? : List Json → Option (List Dict)
  | [] => some []
  | .object members :: rest => do
    let first ← Node.entriesOfJson? members
    let others ← Node.itemsOfJson? rest
    return first :: others
  | _ :: _ => none

end

theorem Node.entriesOfJson?_entriesToJson {dict : Dict}
    (h : ∀ entry ∈ dict, Node.ofJson? entry.2.toJson = some entry.2) :
    Node.entriesOfJson? (Node.entriesToJson dict) = some dict := by
  induction dict with
  | nil => rfl
  | cons entry rest ih =>
    obtain ⟨key, node⟩ := entry
    have hnode := h (key, node) List.mem_cons_self
    have hrest := ih fun other hother => h other (List.mem_cons_of_mem (key, node) hother)
    simp only at hnode
    simp [Node.entriesToJson, Node.entriesOfJson?, hnode, hrest]

theorem Node.itemsOfJson?_itemsToJson {items : List Dict}
    (h : ∀ dict ∈ items, Node.entriesOfJson? (Node.entriesToJson dict) = some dict) :
    Node.itemsOfJson? (Node.itemsToJson items) = some items := by
  induction items with
  | nil => rfl
  | cons dict rest ih =>
    have hdict := h dict List.mem_cons_self
    have hrest := ih fun other hother => h other (List.mem_cons_of_mem dict hother)
    simp [Node.itemsToJson, Node.itemsOfJson?, hdict, hrest]

/-- The JSON of a value is not that of a dictionary. -/
theorem Value.toJson_ne_object (value : Value) (members : List (String × Json)) :
    value.toJson ≠ .object members := by
  unfold Value.toJson
  split <;> exact Json.noConfusion

/-- The JSON of an array does not start with that of a dictionary. -/
theorem Value.toJson_ne_list_object (value : Value) (members : List (String × Json))
    (rest : List Json) : value.toJson ≠ .list (.object members :: rest) := by
  match value with
  | .integer _ | .real .nan | .real (.infinite _) | .real (.finite ..) | .text _ =>
    exact Json.noConfusion
  | .array [] => simp [Value.toJson, Value.itemsToJson]
  | .array (first :: _) =>
    intro h
    simp only [Value.toJson, Value.itemsToJson, Json.list.injEq, List.cons.injEq] at h
    exact first.toJson_ne_object members h.1

theorem Node.ofJson?_value {value : Value} (h : value.Decoded) :
    Node.ofJson? value.toJson = some (.value value) := by
  unfold Node.ofJson?
  split
  · next members heq => exact absurd heq (value.toJson_ne_object members)
  · next members rest heq => exact absurd heq (value.toJson_ne_list_object members rest)
  · rw [Value.ofJson?_toJson h, Option.map_some]

/-- A node is read back from its JSON. -/
theorem Node.ofJson?_toJson {node : Node} (h : node.Decoded) :
    Node.ofJson? node.toJson = some node := by
  induction h with
  | value hheld => exact Node.ofJson?_value hheld
  | dict _ ih =>
    simp [Node.toJson, Node.ofJson?, Node.entriesOfJson?_entriesToJson ih]
  | @list items hne _ ih =>
    have hread (dict : Dict) (hdict : dict ∈ items) :
        Node.entriesOfJson? (Node.entriesToJson dict) = some dict :=
      Node.entriesOfJson?_entriesToJson (ih dict hdict)
    cases items with
    | nil => exact absurd rfl hne
    | cons first others =>
      have hfirst := hread first List.mem_cons_self
      have hothers := Node.itemsOfJson?_itemsToJson fun dict hdict =>
        hread dict (List.mem_cons_of_mem first hdict)
      simp [Node.toJson, Node.itemsToJson, Node.ofJson?, hfirst, hothers]

theorem Dict.entriesOfJson?_entriesToJson {dict : Dict} (h : dict.Decoded) :
    Node.entriesOfJson? (Node.entriesToJson dict) = some dict :=
  Node.entriesOfJson?_entriesToJson fun entry hentry => Node.ofJson?_toJson (h entry hentry)

/-! ## Documents -/

/-- Reads a document from JSON. -/
def Document.ofJson? : Json → Option Document
  | .object [("globals", .object globals), ("steps", .list steps)] => do
    let globals ← Node.entriesOfJson? globals
    let steps ← Node.itemsOfJson? steps
    return { globals, steps }
  | _ => none

/-- The steps of a document are read back from their JSON. -/
theorem Document.itemsOfJson?_steps {document : Document} (h : document.Decoded) :
    Node.itemsOfJson? (Node.itemsToJson document.steps) = some document.steps :=
  Node.itemsOfJson?_itemsToJson fun dict hdict =>
    Dict.entriesOfJson?_entriesToJson (h.steps dict hdict)

/-- A document is read back from its JSON. -/
theorem Document.ofJson?_toJson {document : Document} (h : document.Decoded) :
    Document.ofJson? document.toJson = some document := by
  have hglobals := Dict.entriesOfJson?_entriesToJson h.globals
  simp [Document.toJson, Dict.toJson, Document.stepsToJson, Document.ofJson?, hglobals,
    Document.itemsOfJson?_steps h]

/-- No two documents have one compact JSON text, whatever logs they are read from and however. -/
theorem Document.compact_toJson_injective {options options' : Options} {text text' : String}
    {document document' : Document} (h : Document.ofText options text = .ok document)
    (h' : Document.ofText options' text' = .ok document')
    (hcompact : document.toJson.compact = document'.toJson.compact) : document = document' := by
  have hjson : document.toJson = document'.toJson := Json.compact_injective hcompact
  have hread := Document.ofJson?_toJson (Document.decoded_of_ofLines h)
  rw [hjson, Document.ofJson?_toJson (Document.decoded_of_ofLines h')] at hread
  exact (Option.some.inj hread).symm

/-- A log with a number that is not finite, an array and a list. -/
def plainLog : String :=
  "[INFO][rank 0][MRI][begin-step-attempt] t = NaN, v(:)\n1\n2\n" ++
    "[INFO][rank 0][MRI][begin-stage-list]\n"

/-- A log that says the same in other words. -/
def wordyLog : String :=
  "Solver output\n[WARN][rank 7][ARK][begin-step-attempt] t = nan, v(:) = 0\n 1\n2 \n" ++
    "[WARN][rank 7][ARK][begin-stage-list]\n\n"

/-- The document of both logs. -/
def sharedDocument : Document where
  globals := []
  steps :=
    [[(Step.levelKey, .value (.integer 0)),
      ("t", .value (.real .nan)),
      ("v(:)", .value (.array [.integer 1, .integer 2])),
      ("stage", .list [[]])]]

theorem Document.compact_toJson_injective_shared :
    ∃ document document', Document.ofText {} plainLog = .ok document ∧
      Document.ofText { arrayIndicator := ")" } wordyLog = .ok document' ∧
        document.toJson.compact = document'.toJson.compact ∧ document = document' := by
  have hplain : Document.ofText {} plainLog = .ok sharedDocument := by decide +kernel
  have hwordy : Document.ofText { arrayIndicator := ")" } wordyLog = .ok sharedDocument := by
    decide +kernel
  exact ⟨_, _, hplain, hwordy, rfl, Document.compact_toJson_injective hplain hwordy rfl⟩

end SolverLog
