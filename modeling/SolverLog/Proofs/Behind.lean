import SolverLog.Proofs.Growth
import SolverLog.Proofs.Joining

/-!
# Reading a log behind a document

A draft that stands behind a document (`Draft.behind`) is read as on its own: what a record looks up
and changes are the dictionaries of the draft, as long as no key of the globals is also one of the
document's. Only the numbers of the lines are later.

* `ReadsBehind` — reading goes on in the same way behind a document.
* `ReadsBehind.bind` — one reading after another.
* `readsBehind_record`, `readsBehind_lines` — a record, and the lines of a log.
-/

namespace SolverLog

/-- An error on another line. -/
def StructureError.mapLine (change : Nat → Nat) : StructureError → StructureError
  | duplicateKey line key place => duplicateKey (change line) key place
  | mismatchedEnd line found expected => mismatchedEnd (change line) found expected
  | unexpectedEnd line found => unexpectedEnd (change line) found
  | unbalancedFastSteps line => unbalancedFastSteps (change line)
  | unclosedSection line name => unclosedSection (change line) name

/-- A result of reading that many lines later. -/
def later {α : Type} (lines : Nat) (change : α → α) :
    Except StructureError α → Except StructureError α
  | .ok result => .ok (change result)
  | .error error => .error (error.mapLine (· + lines))

theorem later_bind {α β : Type} {lines : Nat} {change : α → α} {change' : β → β}
    {result : Except StructureError α} {next next' : α → Except StructureError β}
    (h : ∀ a, result = .ok a → next' (change a) = later lines change' (next a)) :
    (later lines change result).bind next' = later lines change' (result.bind next) := by
  cases result with
  | error error => rfl
  | ok a => exact h a rfl

theorem later_map {α β : Type} {lines : Nat} {change : α → α} {change' : β → β} {f : α → β}
    (h : ∀ a, f (change a) = change' (f a)) (result : Except StructureError α) :
    (later lines change result).map f = later lines change' (result.map f) := by
  cases result with
  | error error => rfl
  | ok a => exact congrArg Except.ok (h a)

namespace Draft

variable {front : Document} {lines : Nat} {draft : Draft} {path : Path} {dict : Dict} {key : String}

/-- A draft behind a document, and that many lines later. -/
def behind (front : Document) (lines : Nat) (draft : Draft) : Draft where
  document := front.append draft.document
  openings := draft.openings.map fun opening =>
    { opening with path := opening.path.behind front.steps.length, line := opening.line + lines }
  fastSteps := draft.fastSteps

/-- What is read has no key of the globals in common with a document. If it is an error, there must
be no globals, since the error might be about one of them. -/
def Clear (front : Document) : Except StructureError Draft → Prop
  | .ok draft => front.Apart draft.document
  | .error _ => front.globals = []

theorem top_behind (front : Document) (lines : Nat) (draft : Draft) :
    (draft.behind front lines).top = draft.top.behind front.steps.length := by
  unfold top behind
  cases draft.openings with
  | nil => rfl
  | cons opening outer => rfl

theorem names_behind (front : Document) (lines : Nat) (draft : Draft) :
    (draft.behind front lines).names = draft.names := by
  unfold names behind
  cases draft.openings with
  | nil => rfl
  | cons opening outer =>
      simp only [List.map_cons, List.reverse_cons, List.map_append, List.map_reverse, List.map_map]
      rfl

theorem host_behind (front : Document) (lines : Nat) (draft : Draft) :
    (draft.behind front lines).host = draft.host.behind front.steps.length := by
  unfold host
  rw [top_behind]
  unfold behind
  rw [find?_step_map Opening.opened]
  · cases draft.openings.find? (·.opened = .step) with
    | none => rfl
    | some opening => rfl
  · exact fun _ => rfl

/-! ## Dictionaries behind a document -/

theorem value?_behind (hapart : front.Apart draft.document) (hat : draft.document.at? path = some dict)
    (hkey : path = .globals → key ∉ front.globals.keys) :
    ((draft.behind front lines).dictAt (path.behind front.steps.length)).value? key =
      (draft.dictAt path).value? key := by
  unfold dictAt behind
  rw [Document.at?_append hapart hat, hat]
  exact Document.value?_joined hkey dict

theorem append_behind (hapart : front.Apart draft.document)
    (hat : draft.document.at? path = some dict) (key : String) (node : Node) :
    (draft.behind front lines).append (path.behind front.steps.length) key node =
      (draft.append path key node).behind front lines := by
  unfold append behind
  rw [Document.modify_append hapart hat]
  intro _
  exact List.append_assoc _ _ _

theorem replace_behind (hapart : front.Apart draft.document)
    (hat : draft.document.at? path = some dict) (hkey : path = .globals → key ∉ front.globals.keys)
    (node : Node) :
    (draft.behind front lines).replace (path.behind front.steps.length) key node =
      (draft.replace path key node).behind front lines := by
  unfold replace behind
  rw [Document.modify_append hapart hat]
  intro hglobals
  exact Entries.put_append_of_not_mem (hkey hglobals) _ node

/-- A key that the globals have already is not one of the document before. -/
theorem not_mem_of_value? (hapart : front.Apart draft.document)
    (hat : draft.document.at? path = some dict) {node : Node}
    (hvalue : (draft.dictAt path).value? key = some node) :
    path = .globals → key ∉ front.globals.keys := by
  apply Document.not_mem_of_apart hapart hat
  unfold dictAt at hvalue
  rw [hat] at hvalue
  rw [← Entries.value?_isSome_iff]
  exact Option.isSome_iff_exists.mpr ⟨node, hvalue⟩

/-- A key that the globals get is not one of the document before. -/
theorem not_mem_of_append {node : Node} (hclear : front.Apart (draft.append path key node).document) :
    path = .globals → key ∉ front.globals.keys := by
  rintro rfl hfront
  apply hclear key hfront
  show key ∈ Entries.keys (draft.document.globals ++ [(key, node)])
  simp [Entries.keys]

/-! ## Sections behind a document -/

theorem setField_behind {line : Nat} {field : String × Value} (hapart : front.Apart draft.document)
    (hat : draft.document.at? draft.top = some dict) (hclear : Clear front (setField line draft field)) :
    setField (line + lines) (draft.behind front lines) field =
      later lines (behind front lines) (setField line draft field) := by
  unfold setField at hclear ⊢
  rw [top_behind, names_behind]
  cases hvalue : (draft.dictAt draft.top).value? field.1 with
  | some node =>
      rw [value?_behind hapart hat (not_mem_of_value? hapart hat hvalue), hvalue]
      rfl
  | none =>
      rw [hvalue] at hclear
      rw [value?_behind hapart hat (not_mem_of_append hclear), hvalue]
      simp only [append_behind hapart hat]
      rfl

theorem enterMember_behind {line : Nat} {name : String} (hapart : front.Apart draft.document)
    (hat : draft.document.at? draft.top = some dict)
    (hclear : Clear front (draft.enterMember line name)) :
    (draft.behind front lines).enterMember (line + lines) name =
      later lines (behind front lines) (draft.enterMember line name) := by
  unfold enterMember at hclear ⊢
  rw [top_behind, names_behind]
  cases hvalue : (draft.dictAt draft.top).value? name with
  | some node =>
      rw [value?_behind hapart hat (not_mem_of_value? hapart hat hvalue), hvalue]
      cases node with
      | value held | dict held | list items => rfl
  | none =>
      rw [hvalue] at hclear
      rw [value?_behind hapart hat (not_mem_of_append hclear), hvalue]
      simp only [append_behind hapart hat]
      rfl

theorem enterElement_behind {line : Nat} {opened : Section} (hapart : front.Apart draft.document)
    (hat : draft.document.at? path = some dict)
    (hclear : Clear front (draft.enterElement line opened path key)) :
    (draft.behind front lines).enterElement (line + lines) opened
        (path.behind front.steps.length) key =
      later lines (behind front lines) (draft.enterElement line opened path key) := by
  unfold enterElement at hclear ⊢
  rw [names_behind]
  cases hvalue : (draft.dictAt path).value? key with
  | some node =>
      have hkey := not_mem_of_value? hapart hat hvalue
      rw [value?_behind hapart hat hkey, hvalue]
      cases node with
      | value held | dict held => rfl
      | list items =>
          simp only [replace_behind hapart hat hkey]
          rfl
  | none =>
      rw [hvalue] at hclear
      rw [value?_behind hapart hat (not_mem_of_append hclear), hvalue]
      simp only [append_behind hapart hat]
      rfl

theorem enterTopLevel_behind (front : Document) (lines line : Nat) (draft : Draft) :
    (draft.behind front lines).enterTopLevel (line + lines) =
      (draft.enterTopLevel line).behind front lines := by
  unfold enterTopLevel enterAt behind Document.append
  simp only [List.append_assoc, List.length_append, List.map_cons]
  rfl

end Draft

namespace Builder

namespace Draws

variable {front : Document} {s : State} {path : Nat → Path} {draft : Draft}

theorem exists_at?_top (h : Draws path s draft) :
    ∃ dict, draft.document.at? draft.top = some dict := by
  rw [h.top_eq, h.document_eq]
  exact ⟨_, h.addressed.at?_eq h.owned h.owned.current_lt⟩

theorem exists_at?_host (h : Draws path s draft) :
    ∃ dict, draft.document.at? draft.host = some dict := by
  rw [h.host_eq, h.document_eq]
  exact ⟨_, h.addressed.at?_eq h.owned h.owned.host_lt⟩

/-- Globals only get more keys, so if what is read is clear of a document, so is what was there
before. -/
theorem apart_of_clear (h : Draws path s draft) {line : Nat} {moves : List Move}
    {result : Except StructureError Draft} (hdrawn : (run line moves s).DrawnBy result)
    (hclear : Draft.Clear front result) : front.Apart draft.document := by
  cases hrun : run line moves s with
  | refused error last =>
      rw [hrun] at hdrawn
      have hresult : result = .error error := hdrawn
      rw [hresult] at hclear
      have hglobals : front.globals = [] := hclear
      intro key hkey
      rw [hglobals] at hkey
      cases hkey
  | reached t =>
      rw [hrun] at hdrawn
      obtain ⟨path', draft', rfl, h'⟩ := hdrawn
      have hembeds : draft.document.EmbedsIn draft'.document := by
        rw [h.document_eq, h'.document_eq]
        exact (embedsIn_of_run h.owned hrun).2.document h.owned h'.owned
      intro key hkey hmem
      exact hclear key hkey (hembeds.globals.mem_keys hmem)

end Draws

/-! ## Reading behind a document -/

/-- Reading goes on in the same way behind a document, that many lines later, as long as what is read
is clear of the document: what was there before is apart from it, and the result is behind it. -/
structure ReadsBehind (front : Document) (lines : Nat)
    (next next' : Draft → Except StructureError Draft) : Prop where
  drawn : ∀ {path s draft draft'}, Draws path s draft → next draft = .ok draft' →
    ∃ path' s', Draws path' s' draft'
  apart : ∀ {path s draft}, Draws path s draft → Draft.Clear front (next draft) →
    front.Apart draft.document
  eq : ∀ {path s draft}, Draws path s draft → Draft.Clear front (next draft) →
    next' (draft.behind front lines) = later lines (Draft.behind front lines) (next draft)

namespace ReadsBehind

variable {front : Document} {lines : Nat} {next next' : Draft → Except StructureError Draft}

/-- What moves carry out. -/
theorem of_run {line : Nat} {moves : List Move}
    (hdrawn : ∀ {path s draft}, Draws path s draft → (run line moves s).DrawnBy (next draft))
    (heq : ∀ {path s draft}, Draws path s draft → front.Apart draft.document →
      Draft.Clear front (next draft) →
        next' (draft.behind front lines) = later lines (Draft.behind front lines) (next draft)) :
    ReadsBehind front lines next next' where
  drawn := by
    intro path s draft draft' h hnext
    have hrun := hdrawn h
    rw [hnext] at hrun
    cases houtcome : run line moves s with
    | refused error last =>
        rw [houtcome] at hrun
        cases hrun
    | reached s' =>
        rw [houtcome] at hrun
        obtain ⟨path', draft'', hdraft, h'⟩ := hrun
        cases hdraft
        exact ⟨path', s', h'⟩
  apart := fun h hclear => h.apart_of_clear (hdrawn h) hclear
  eq := fun h hclear => heq h (h.apart_of_clear (hdrawn h) hclear) hclear

/-- Reading nothing. -/
theorem ok : ReadsBehind front lines .ok .ok where
  drawn := by
    intro path s draft draft' h hok
    cases hok
    exact ⟨path, s, h⟩
  apart := fun _ hclear => hclear
  eq := fun _ _ => rfl

/-- One reading after another. -/
theorem bind {second second' : Draft → Except StructureError Draft}
    (hnext : ReadsBehind front lines next next')
    (hsecond : ReadsBehind front lines second second') :
    ReadsBehind front lines (fun draft => (next draft).bind second)
      (fun draft => (next' draft).bind second') := by
  -- What the first reading comes to is clear, since what the second one comes to is.
  have hclear : ∀ {path s draft}, Draws path s draft →
      Draft.Clear front ((next draft).bind second) → Draft.Clear front (next draft) := by
    intro path s draft h hboth
    cases hfirst : next draft with
    | error error =>
        rw [hfirst] at hboth
        exact hboth
    | ok middle =>
        rw [hfirst] at hboth
        obtain ⟨path', s', h'⟩ := hnext.drawn h hfirst
        exact hsecond.apart h' hboth
  refine ⟨?_, ?_, ?_⟩
  · intro path s draft draft' h hboth
    cases hfirst : next draft with
    | error error =>
        rw [hfirst] at hboth
        cases hboth
    | ok middle =>
        rw [hfirst] at hboth
        obtain ⟨path', s', h'⟩ := hnext.drawn h hfirst
        exact hsecond.drawn h' hboth
  · intro path s draft h hboth
    exact hnext.apart h (hclear h hboth)
  · intro path s draft h hboth
    rw [hnext.eq h (hclear h hboth)]
    apply later_bind
    intro middle hfirst
    obtain ⟨path', s', h'⟩ := hnext.drawn h hfirst
    rw [hfirst] at hboth
    exact hsecond.eq h' hboth

/-- Reading, and a change of what is open. -/
theorem eq_map (hnext : ReadsBehind front lines next next') {change : Draft → Draft}
    {path : Nat → Path} {s : State} {draft : Draft} (h : Draws path s draft)
    (hclear : Draft.Clear front ((next draft).map change))
    (hdocument : ∀ draft, (change draft).document = draft.document)
    (hchange : ∀ draft, change (draft.behind front lines) = (change draft).behind front lines) :
    (next' (draft.behind front lines)).map change =
      later lines (Draft.behind front lines) ((next draft).map change) := by
  have hnextClear : Draft.Clear front (next draft) := by
    cases hread : next draft with
    | error error =>
        rw [hread] at hclear
        exact hclear
    | ok read =>
        rw [hread] at hclear
        show front.Apart read.document
        rw [← hdocument read]
        exact hclear
  rw [hnext.eq h hnextClear]
  exact later_map hchange _

end ReadsBehind

variable {front : Document} {lines : Nat}

theorem readsBehind_set (line : Nat) (field : String × Value) :
    ReadsBehind front lines (fun draft => draft.setField line field)
      (fun draft => draft.setField (line + lines) field) := by
  refine .of_run (fun h => h.set line field) ?_
  intro path s draft h hapart hclear
  obtain ⟨dict, hat⟩ := h.exists_at?_top
  exact Draft.setField_behind hapart hat hclear

theorem readsBehind_sets (line : Nat) (fields : Payload) :
    ReadsBehind front lines (fun draft => draft.setFields line fields)
      (fun draft => draft.setFields (line + lines) fields) := by
  induction fields with
  | nil => exact .ok
  | cons field rest ih =>
      simp only [Draft.setFields_cons]
      exact (readsBehind_set line field).bind ih

theorem readsBehind_enter (line : Nat) (opened : Section) :
    ReadsBehind front lines (fun draft => draft.enter line opened)
      (fun draft => draft.enter (line + lines) opened) := by
  refine .of_run (fun h => h.enter line opened) ?_
  intro path s draft h hapart hclear
  obtain ⟨dict, hat⟩ := h.exists_at?_top
  obtain ⟨dict', hat'⟩ := h.exists_at?_host
  unfold Draft.enter at hclear ⊢
  cases opened with
  | plain name => exact Draft.enterMember_behind hapart hat hclear
  | entry list =>
      simp only [Draft.top_behind]
      exact Draft.enterElement_behind hapart hat hclear
  | step =>
      have hempty : (draft.behind front lines).openings.isEmpty = draft.openings.isEmpty :=
        List.isEmpty_map
      have hfast : (draft.behind front lines).fastSteps = draft.fastSteps := rfl
      simp only [hempty, hfast, Draft.top_behind, Draft.host_behind] at hclear ⊢
      split
      · rw [Draft.enterTopLevel_behind]
        rfl
      · next hopen =>
          rw [if_neg hopen] at hclear
          split
          · next hzero =>
              rw [if_pos hzero] at hclear
              exact Draft.enterElement_behind hapart hat hclear
          · next hzero =>
              rw [if_neg hzero] at hclear
              exact Draft.enterElement_behind hapart hat' hclear

/-- A record is read behind a document as on its own. -/
theorem readsBehind_record (line : Nat) (record : Record) :
    ReadsBehind front lines (Draft.readRecord line record)
      (Draft.readRecord (line + lines) record) := by
  refine .of_run (fun h => h.record line record) ?_
  intro path s draft h hapart hclear
  have hsets : ReadsBehind front lines (fun draft => draft.setFields line record.payload)
      (fun draft => draft.setFields (line + lines) record.payload) :=
    readsBehind_sets line record.payload
  unfold Draft.readRecord at hclear ⊢
  cases hmarker : Marker.ofLabel record.label with
  | remark =>
      simp only [hmarker] at hclear ⊢
      exact hsets.eq h hclear
  | opens opened =>
      simp only [hmarker] at hclear ⊢
      exact ((readsBehind_enter line opened).bind hsets).eq h hclear
  | closes closed =>
      have hopenings : (draft.behind front lines).openings = draft.openings.map fun opening =>
          { opening with
            path := opening.path.behind front.steps.length, line := opening.line + lines } := rfl
      simp only [hmarker, hopenings] at hclear ⊢
      cases hopen : draft.openings with
      | nil => rfl
      | cons opening outer =>
          simp only [hopen, List.map_cons] at hclear ⊢
          split
          · next heq =>
              rw [if_pos heq] at hclear
              refine hsets.eq_map h hclear (fun _ => rfl) ?_
              intro filled
              unfold Draft.behind
              rw [List.map_tail]
          · rfl
  | beginsFastSteps =>
      simp only [hmarker] at hclear ⊢
      exact hsets.eq_map h hclear (fun _ => rfl) (fun _ => rfl)
  | endsFastSteps =>
      have hfast : (draft.behind front lines).fastSteps = draft.fastSteps := rfl
      simp only [hmarker, hfast] at hclear ⊢
      split
      · rfl
      · next hnonzero =>
          rw [if_neg hnonzero] at hclear
          exact hsets.eq_map h hclear (fun _ => rfl) (fun _ => rfl)

/-- The lines of a log are read behind a document as on their own. -/
theorem readsBehind_lines (indicator : String) (number : Nat) (log : List String) :
    ReadsBehind front lines (Draft.readLines indicator number log)
      (Draft.readLines indicator (number + lines) log) := by
  induction log generalizing number with
  | nil => exact .ok
  | cons line following ih =>
      have hfollowing := ih (number + 1)
      rw [Nat.add_right_comm] at hfollowing
      cases hread : Record.read? indicator line following with
      | none =>
          have hskip : ∀ number, Draft.readLines indicator number (line :: following) =
              Draft.readLines indicator (number + 1) following := by
            intro number
            funext draft
            simp only [Draft.readLines, hread]
          rw [hskip, hskip]
          exact hfollowing
      | some record =>
          have hrecord : ∀ number, Draft.readLines indicator number (line :: following) =
              fun draft => (Draft.readRecord number record draft).bind
                (Draft.readLines indicator (number + 1) following) := by
            intro number
            funext draft
            simp only [Draft.readLines, hread]
          rw [hrecord, hrecord]
          exact (readsBehind_record number record).bind hfollowing

/-- The document of a draft behind another document, at the end of a log. -/
theorem finish_behind (options : Options) (front : Document) (lines : Nat) (draft : Draft) :
    (draft.behind front lines).finish options =
      later lines front.append (draft.finish options) := by
  unfold Draft.finish Draft.behind
  cases draft.openings with
  | nil => rfl
  | cons opening outer =>
      simp only [List.map_cons]
      split
      · rfl
      · rfl

end Builder

end SolverLog
