import SolverLog.Proofs.Register

/-!
# The skeleton of a document

What a document looks like is decided by the labels and the keys of the records alone. Two logs that
agree in these, line by line, either fail with the same error, or have documents of the same shape
with the same time levels; whatever their values, their arrays, their commentary and the rest of their
headers are.

* `Document.SameShape` — two documents with the same keys, the same kinds of nodes and lists of the
  same lengths.
* `attempts_alike` — alike states have the same attempts.
* `Document.ofLines_sameSkeleton` — two logs with the same labels and keys.
-/

namespace SolverLog

/-! ## Records that agree -/

/-- What each line of a log reads as: a record, or nothing if it is commentary. -/
def Record.readEach (indicator : String) : List String → List (Option Record)
  | [] => []
  | line :: following => read? indicator line following :: readEach indicator following

/-- Two records with one label and the same keys in the same order. -/
structure Record.SameForm (record record' : Record) : Prop where
  label_eq : record.label = record'.label
  keys_eq : record.payload.keys = record'.payload.keys

/-- Two records with one label and one payload. -/
structure Record.SameContent (record record' : Record) : Prop where
  label_eq : record.label = record'.label
  payload_eq : record.payload = record'.payload

theorem Record.SameContent.sameForm {record record' : Record} (h : record.SameContent record') :
    record.SameForm record' :=
  ⟨h.label_eq, congrArg Entries.keys h.payload_eq⟩

instance : DecidableRel Record.SameForm := fun record record' =>
  decidable_of_iff (record.label = record'.label ∧ record.payload.keys = record'.payload.keys)
    ⟨fun h => ⟨h.1, h.2⟩, fun h => ⟨h.label_eq, h.keys_eq⟩⟩

instance : DecidableRel Record.SameContent := fun record record' =>
  decidable_of_iff (record.label = record'.label ∧ record.payload = record'.payload)
    ⟨fun h => ⟨h.1, h.2⟩, fun h => ⟨h.label_eq, h.payload_eq⟩⟩

instance {R : Record → Record → Prop} [DecidableRel R] : DecidableRel (Option.Rel R)
  | none, none => .isTrue .none
  | none, some _ => .isFalse nofun
  | some _, none => .isFalse nofun
  | some record, some record' =>
    decidable_of_iff (R record record') ⟨.some, fun h => by cases h; assumption⟩

/-! ## Documents that agree -/

/-- Two nodes of one kind: two values, two dictionaries with the same keys in the same order, or two
lists of the same length; and so on within them. -/
inductive Node.SameShape : Node → Node → Prop where
  | value (v w : Value) : SameShape (.value v) (.value w)
  | dict {d e : Dict} (h : Entries.Alike Node.SameShape d e) : SameShape (.dict d) (.dict e)
  | list {ds es : List Dict} (h : List.Forall₂ (Entries.Alike Node.SameShape) ds es) :
      SameShape (.list ds) (.list es)

/-- Two documents of the same shape. -/
structure Document.SameShape (first second : Document) : Prop where
  globals : Entries.Alike Node.SameShape first.globals second.globals
  steps : List.Forall₂ (Entries.Alike Node.SameShape) first.steps second.steps

/-- Two results of reading a log: related documents, or the same error. -/
inductive Document.Agree (R : Document → Document → Prop) :
    Except StructureError Document → Except StructureError Document → Prop where
  | ok {first second : Document} (h : R first second) : Agree R (.ok first) (.ok second)
  | error (error : StructureError) : Agree R (.error error) (.error error)

/-- What the dictionary at a path of a document holds first. -/
def Document.firstAt? (document : Document) (path : Path) : Option (String × Node) :=
  (document.at? path).bind List.head?

/-- Every step of a log has its level first. -/
def Document.HasLevels (document : Document) (attempts : List Attempt) : Prop :=
  ∀ attempt ∈ attempts,
    document.firstAt? attempt.path = some (Step.levelKey, .value (.integer attempt.level))

/-- Two documents of the same shape, of which the steps of the same attempts have the same levels. -/
structure Document.SameSkeleton (attempts : List Attempt) (first second : Document) : Prop where
  shape : first.SameShape second
  levels : first.HasLevels attempts
  levels' : second.HasLevels attempts

namespace Builder

variable {s t : State} {path path' : Nat → Path}

/-! ## States that differ in their values -/

/-- Any two values. -/
def AnyValue (_ _ : Value) : Prop := True

theorem Entries.alike_of_keys_eq {d e : Payload} (h : d.keys = e.keys) :
    Entries.Alike AnyValue d e := by
  induction d generalizing e with
  | nil =>
      rw [List.map_eq_nil_iff.mp h.symm]
      exact .nil
  | cons entry rest ih =>
      obtain ⟨first, more, rfl, hkey, hrest⟩ := List.map_eq_cons_iff.mp h.symm
      obtain ⟨key, value⟩ := entry
      obtain ⟨other, value'⟩ := first
      cases hkey
      exact .cons trivial (ih hrest.symm)

/-- The moves of logs whose records are related are related, if those of related records are. -/
theorem Move.ofLines_related {R : Record → Record → Prop} {S : List Move → List Move → Prop}
    (hskip : S [.skip] [.skip])
    (hrecords : ∀ record record', R record record' → S (Move.ofRecord record) (Move.ofRecord record'))
    {indicator indicator' : String} {lines lines' : List String}
    (h : List.Forall₂ (Option.Rel R) (Record.readEach indicator lines)
      (Record.readEach indicator' lines')) :
    List.Forall₂ S (Move.ofLines indicator [] lines) (Move.ofLines indicator' [] lines') := by
  induction lines generalizing lines' with
  | nil =>
      cases lines' with
      | nil => exact .nil
      | cons line following => cases h
  | cons line following ih =>
      cases lines' with
      | nil => cases h
      | cons line' following' =>
          rcases List.forall₂_cons.mp h with ⟨hline, hrest⟩
          refine .cons ?_ (ih hrest)
          rw [List.append_nil, List.append_nil]
          unfold Move.ofLine
          generalize Record.read? indicator line following = read at hline
          generalize Record.read? indicator' line' following' = read' at hline
          cases hline with
          | none => exact hskip
          | some hrecord => exact hrecords _ _ hrecord

theorem Move.ofRecord_sameForm {record record' : Record} (h : record.SameForm record') :
    List.Forall₂ (Move.Alike AnyValue) (Move.ofRecord record) (Move.ofRecord record') :=
  Move.ofRecord_alike h.label_eq (Entries.alike_of_keys_eq h.keys_eq)

theorem Move.ofRecord_sameContent {record record' : Record} (h : record.SameContent record') :
    Move.ofRecord record = Move.ofRecord record' := by
  rw [Move.ofRecord_eq, Move.ofRecord_eq, h.label_eq, h.payload_eq]

/-- What the same number stands for in alike states has the same shape. -/
theorem State.Alike.dictOf (h : s.Alike AnyValue t) (hs : Owned s) (ht : Owned t) (number : Nat) :
    Entries.Alike Node.SameShape (s.dictOf number) (t.dictOf number) := by
  -- The induction goes from the last dictionary down, since holders have smaller numbers.
  induction hsize : s.dicts.size - number using Nat.strong_induction_on generalizing number with
  | _ size ih =>
      have hslot : ∀ entry ∈ s.entries number, ∀ slot, entry.2.Alike AnyValue slot →
          (entry.2.standsFor s.dictOf).SameShape (slot.standsFor t.dictOf) := by
        intro entry hentry slot hslot
        have hchild : ∀ child ∈ entry.2.numbers,
            Entries.Alike Node.SameShape (s.dictOf child) (t.dictOf child) := by
          intro child hchild
          have hlater : number < child := hs.later number entry hentry child hchild
          have hlt : child < s.dicts.size := hs.child_lt hentry hchild
          exact ih (s.dicts.size - child) (by omega) child rfl
        generalize entry.2 = slot' at hslot hchild
        cases hslot with
        | value => exact .value _ _
        | dict child => exact .dict (hchild child (by simp))
        | list numbers =>
            refine .list (List.forall₂_map_left_iff.mpr (List.forall₂_map_right_iff.mpr ?_))
            exact List.forall₂_same.mpr hchild
      have hentries := h.entries number
      rw [hs.dictOf_eq, ht.dictOf_eq]
      generalize s.entries number = d at hslot hentries
      generalize t.entries number = e at hentries
      clear hsize ih
      induction hentries with
      | nil => exact .nil
      | cons hvalue _ ihrest =>
          refine .cons (hslot _ List.mem_cons_self _ hvalue) (ihrest ?_)
          intro entry hentry
          exact hslot entry (List.mem_cons_of_mem _ hentry)

theorem State.Alike.sameShape (h : s.Alike AnyValue t) (hs : Owned s) (ht : Owned t) :
    s.document.SameShape t.document := by
  rw [State.document_eq hs, State.document_eq ht]
  refine ⟨h.dictOf hs ht globalsNumber, ?_⟩
  rw [← h.steps_eq]
  refine List.forall₂_map_left_iff.mpr (List.forall₂_map_right_iff.mpr (List.forall₂_same.mpr ?_))
  intro number _
  exact h.dictOf hs ht number

/-! ## The attempts of alike states -/

/-- The drafts of alike states have the same sections and regions open, at the same paths. -/
theorem Draws.openings_alike {draft draft' : Draft} (halike : s.Alike AnyValue t)
    (hdraws : Draws path s draft) (hdraws' : Draws path' t draft') :
    draft.openings = draft'.openings ∧ draft.fastSteps = draft'.fastSteps := by
  constructor
  · rw [hdraws.openings_eq, hdraws'.openings_eq, ← halike.frames_eq]
    apply List.map_congr_left
    intro frame hframe
    have hpath := hdraws.addressed.path_eq hdraws.owned hdraws'.addressed halike.keepsPlaces
      (hdraws.owned.opened_lt frame hframe)
    rw [hpath]
  · rw [hdraws.fastSteps_eq, hdraws'.fastSteps_eq, halike.fastSteps_eq]

/-- Records that agree in form make the same attempt of alike drafts. -/
theorem attemptsWith_alike {draft draft' next next' : Draft}
    (hdraft : draft.openings = draft'.openings ∧ draft.fastSteps = draft'.fastSteps)
    (hnext : next.openings = next'.openings ∧ next.fastSteps = next'.fastSteps) (line : Nat)
    {record record' : Record} (hlabel : record.label = record'.label) (done : List Attempt) :
    draft.attemptsWith line record done next = draft'.attemptsWith line record' done next' := by
  unfold Draft.attemptsWith Draft.attempt Draft.reaches Draft.top
  rw [hdraft.1, hdraft.2, hnext.1, hlabel]

/-- Logs that agree in labels and keys have the same attempts. -/
theorem attempts_alike {draft draft' : Draft} (halike : s.Alike AnyValue t)
    (hdraws : Draws path s draft) (hdraws' : Draws path' t draft') {indicator indicator' : String}
    {lines lines' : List String}
    (h : List.Forall₂ (Option.Rel Record.SameForm) (Record.readEach indicator lines)
      (Record.readEach indicator' lines')) (number : Nat) (done : List Attempt) :
    draft.attempts indicator number lines done = draft'.attempts indicator' number lines' done := by
  induction lines generalizing s t path path' draft draft' lines' number done with
  | nil =>
      cases lines' with
      | nil => rfl
      | cons line following => cases h
  | cons line following ih =>
      cases lines' with
      | nil => cases h
      | cons line' following' =>
          rcases List.forall₂_cons.mp h with ⟨hline, hrest⟩
          unfold Draft.attempts
          generalize Record.read? indicator line following = read at hline
          generalize Record.read? indicator' line' following' = read' at hline
          cases hline with
          | none => exact ih halike hdraws hdraws' hrest (number + 1) done
          | @some record record' hrecord =>
              -- Both records are carried out, or both are refused.
              have hrun := run_alike (fun _ => trivial) number (Move.ofRecord_sameForm hrecord) halike
              have hread := hdraws.record number record
              have hread' := hdraws'.record number record'
              generalize run number (Move.ofRecord record) s = outcome at hrun hread
              generalize run number (Move.ofRecord record') t = outcome' at hrun hread'
              cases hrun with
              | reached hnext =>
                  obtain ⟨_, next, hok, hdrawsNext⟩ := hread
                  obtain ⟨_, next', hok', hdrawsNext'⟩ := hread'
                  simp only [hok, hok']
                  rw [attemptsWith_alike (hdraws.openings_alike halike hdraws')
                    (hdrawsNext.openings_alike hnext hdrawsNext') number hrecord.label_eq done]
                  exact ih hnext hdrawsNext hdrawsNext' hrest (number + 1) _
              | refused error last last' =>
                  have herror : draft.readRecord number record = .error error := hread
                  have herror' : draft'.readRecord number record' = .error error := hread'
                  simp only [herror, herror']

/-- What alike states come to at the end of a log. -/
theorem State.Alike.finish (h : s.Alike AnyValue t) (hs : Owned s) (ht : Owned t)
    {options options' : Options} (hclosed : options.requireClosed = options'.requireClosed) :
    Document.Agree Document.SameShape (s.finish options) (t.finish options') := by
  have hshape := h.sameShape hs ht
  unfold State.finish
  rw [h.frames_eq, hclosed]
  cases t.frames with
  | nil => exact .ok hshape
  | cons frame outer =>
      cases options'.requireClosed with
      | false => exact .ok hshape
      | true => exact .error _

end Builder

/-- Reading logs that agree in labels and keys gives documents of the same shape, or the same
error. -/
theorem Document.ofLines_sameShape {options options' : Options} {lines lines' : List String}
    (hclosed : options.requireClosed = options'.requireClosed)
    (hform : List.Forall₂ (Option.Rel Record.SameForm)
      (Record.readEach options.arrayIndicator lines) (Record.readEach options'.arrayIndicator lines')) :
    Agree SameShape (ofLines options lines) (ofLines options' lines') := by
  have hmoves := Builder.Move.ofLines_related (.cons (.same .skip) .nil)
    (fun _ _ => Builder.Move.ofRecord_sameForm) hform
  have hruns := Builder.runMoves_alike (fun _ => trivial) 1 hmoves
    (.refl (fun _ => trivial) Builder.State.initial)
  rw [← Builder.runLines_eq_runMoves, ← Builder.runLines_eq_runMoves] at hruns
  unfold ofLines
  cases hrun : Builder.runLines options.arrayIndicator 1 lines .initial with
  | reached s =>
      cases hrun' : Builder.runLines options'.arrayIndicator 1 lines' .initial with
      | reached t =>
          rw [hrun, hrun'] at hruns
          cases hruns with
          | reached halike =>
              exact halike.finish (Builder.owned_of_runLines hrun) (Builder.owned_of_runLines hrun')
                hclosed
      | refused error last =>
          rw [hrun, hrun'] at hruns
          cases hruns
  | refused error last =>
      rw [hrun] at hruns
      generalize Builder.runLines options'.arrayIndicator 1 lines' .initial = outcome at hruns ⊢
      cases hruns
      exact .error error

/-- The steps of a log have their levels first. -/
theorem Document.hasLevels_of_ofLines {options : Options} {lines : List String}
    {document : Document} (h : ofLines options lines = .ok document) :
    document.HasLevels (attempts options lines) := by
  obtain ⟨s, path, register, hrun, rfl, haddressed, hregister, hattempts⟩ :=
    Builder.Registers.ofLines (fun _ => True) h fun _ _ _ _ => trivial
  have howned := Builder.owned_of_runLines hrun
  intro attempt hattempt
  rw [← hattempts] at hattempt
  obtain ⟨entry, hentry, rfl⟩ := List.mem_map.mp hattempt
  have hreg := hregister.registered entry hentry
  unfold firstAt?
  rw [hreg.path_eq, haddressed.at?_eq howned hreg.lt]
  exact hreg.head?_dictOf howned

/-- The skeleton of a document depends on the labels and the keys of its log only. Two logs that
agree in these, line by line, have the same attempts, and they have documents of the same skeleton or
fail with the same error; if they agree in all of the payloads, they have the same document. -/
theorem Document.ofLines_sameSkeleton {options options' : Options} {lines lines' : List String}
    (hclosed : options.requireClosed = options'.requireClosed)
    (hform : List.Forall₂ (Option.Rel Record.SameForm)
      (Record.readEach options.arrayIndicator lines) (Record.readEach options'.arrayIndicator lines')) :
    attempts options lines = attempts options' lines' ∧
      Agree (SameSkeleton (attempts options lines)) (ofLines options lines)
        (ofLines options' lines') ∧
      (List.Forall₂ (Option.Rel Record.SameContent) (Record.readEach options.arrayIndicator lines)
          (Record.readEach options'.arrayIndicator lines') →
        ofLines options lines = ofLines options' lines') := by
  have hattempts : attempts options lines = attempts options' lines' :=
    Builder.attempts_alike (.refl (fun _ => trivial) Builder.State.initial) Builder.Draws.initial
      Builder.Draws.initial hform 1 []
  refine ⟨hattempts, ?_, ?_⟩
  · have hshape := ofLines_sameShape hclosed hform
    have hlevels := @hasLevels_of_ofLines options lines
    have hlevels' := @hasLevels_of_ofLines options' lines'
    rw [← hattempts] at hlevels'
    generalize ofLines options lines = result at hshape hlevels
    generalize ofLines options' lines' = result' at hshape hlevels'
    cases hshape with
    | ok hsame => exact .ok ⟨hsame, hlevels rfl, hlevels' rfl⟩
    | error error => exact .error error
  · intro hcontent
    -- The moves are the same, and so is what is done with the state at the end.
    have hmoves := Builder.Move.ofLines_related rfl
      (fun _ _ => Builder.Move.ofRecord_sameContent) hcontent
    rw [List.forall₂_eq_eq_eq] at hmoves
    unfold ofLines
    rw [Builder.runLines_eq_runMoves, Builder.runLines_eq_runMoves, hmoves]
    cases Builder.runMoves 1 (Builder.Move.ofLines options'.arrayIndicator [] lines') .initial with
    | refused error last => rfl
    | reached s =>
        unfold Builder.Outcome.finish Builder.State.finish
        rw [hclosed]

/-- A log with a fast step that has an array. -/
def steppedLog : List String :=
  ["[A][rank 0][][begin-step-attempt]h=1",
    "[A][rank 0][][begin-fast-steps]",
    "[A][rank 0][][begin-step-attempt]y(:)=",
    "15"]

/-- A log with the same labels and keys, and nothing else of it. -/
def disguisedLog : List String :=
  ["[B][rank 7][S][begin-step-attempt] h = NaN",
    "[B][rank 7][T][begin-fast-steps]",
    "[B][rank -7][][begin-step-attempt] y(:) = slow",
    ""]

/-- A log with the same labels and payloads, written in another way. -/
def reworkedLog : List String :=
  ["[C][rank 1][S][begin-step-attempt] h = +1,",
    "[C][rank 1][T][begin-fast-steps],",
    "[C][rank 2][][begin-step-attempt]y(:)",
    " 015 "]

theorem Document.ofLines_sameSkeleton_stepped :
    Agree (SameSkeleton (attempts {} steppedLog)) (ofLines {} steppedLog)
        (ofLines { arrayIndicator := "[]" } disguisedLog) ∧
      ofLines {} steppedLog = ofLines { arrayIndicator := ":)" } reworkedLog ∧
      (attempts {} steppedLog).map Attempt.level = [0, 1] ∧
      (ofLines {} steppedLog).toOption.isSome = true := by
  have hdisguised : List.Forall₂ (Option.Rel Record.SameForm)
      (Record.readEach Payload.defaultIndicator steppedLog) (Record.readEach "[]" disguisedLog) := by
    decide +kernel
  have hcontent : List.Forall₂ (Option.Rel Record.SameContent)
      (Record.readEach Payload.defaultIndicator steppedLog) (Record.readEach ":)" reworkedLog) := by
    decide +kernel
  have hreworked : List.Forall₂ (Option.Rel Record.SameForm)
      (Record.readEach Payload.defaultIndicator steppedLog) (Record.readEach ":)" reworkedLog) := by
    refine hcontent.imp fun read read' hread => ?_
    cases hread with
    | none => exact .none
    | some hrecord => exact .some hrecord.sameForm
  have hform := @ofLines_sameSkeleton {} { arrayIndicator := "[]" } steppedLog disguisedLog rfl
    hdisguised
  have hsame := @ofLines_sameSkeleton {} { arrayIndicator := ":)" } steppedLog reworkedLog rfl
    hreworked
  exact ⟨hform.2.1, hsame.2.2 hcontent, by decide +kernel, by decide +kernel⟩

end SolverLog
