import SolverLog.Proofs.Commentary

/-!
# The fields of a marker

The fields of a record that opens or closes a section belong to that section: they could as well stand in
a record of their own that marks nothing, behind the one that opens the section or before the one that
closes it. For a region of fast steps, which has no dictionary, they could stand on either side.

* `Splits` — how a marker line is split in two lines.
* `next?_sets` — fields change dictionaries only, and look at no more than the current one.
* `next?_split` — the two lines lead where the one line leads.
* `Document.toOption_ofLines_split` — a log with the one line, and the log with the two.
-/

namespace SolverLog

/-- A line that has the header of another one, without its payload. -/
def IsBare (header : Header) (line : String) : Prop :=
  Header.read? line = some { header with payload := "" }

/-- A record line that marks nothing and has the payload of a header. -/
def CarriesPayload (header : Header) (line : String) : Prop :=
  ∃ note ∈ Header.read? line, Marker.ofLabel note.label = .remark ∧ note.payload = header.payload

instance (header : Header) (line : String) : Decidable (IsBare header line) :=
  inferInstanceAs (Decidable (_ = _))

instance (header : Header) (line : String) : Decidable (CarriesPayload header line) :=
  inferInstanceAs (Decidable (∃ note ∈ Header.read? line, _ ∧ _))

/-- Markers whose fields can stand behind them: those that open something, and the ends of fast steps. -/
def Marker.TakesBehind : Marker → Prop
  | opens _ | beginsFastSteps | endsFastSteps => True
  | remark | closes _ => False

/-- Markers whose fields can stand before them: those that close something, and the beginnings of fast
steps. -/
def Marker.TakesBefore : Marker → Prop
  | closes _ | beginsFastSteps | endsFastSteps => True
  | remark | opens _ => False

instance (marker : Marker) : Decidable marker.TakesBehind :=
  match marker with
  | .opens _ | .beginsFastSteps | .endsFastSteps => .isTrue trivial
  | .remark | .closes _ => .isFalse id

instance (marker : Marker) : Decidable marker.TakesBefore :=
  match marker with
  | .closes _ | .beginsFastSteps | .endsFastSteps => .isTrue trivial
  | .remark | .opens _ => .isFalse id

/-- Two lines that a marker line with that header can be split in: one without its payload, and one that
carries it. -/
inductive Splits (header : Header) : String → String → Prop where
  | behind {bare note : String} (hmarker : (Marker.ofLabel header.label).TakesBehind)
      (hbare : IsBare header bare) (hnote : CarriesPayload header note) : Splits header bare note
  | before {bare note : String} (hmarker : (Marker.ofLabel header.label).TakesBefore)
      (hbare : IsBare header bare) (hnote : CarriesPayload header note) : Splits header note bare

namespace Builder

variable {s t : State} {line line' : Nat} {fields : Payload} {indicator : String}

/-! ## The state that is reached -/

/-- The state that moves lead to, if none of them is refused. -/
def next? (line : Nat) (moves : List Move) (s : State) : Option State :=
  match run line moves s with
  | .reached t => some t
  | .refused .. => none

theorem next?_eq_some_iff {moves : List Move} :
    next? line moves s = some t ↔ run line moves s = .reached t := by
  unfold next?
  cases run line moves s <;> simp

theorem next?_append (line : Nat) (first second : List Move) (s : State) :
    next? line (first ++ second) s = (next? line first s).bind (next? line second) := by
  unfold next?
  rw [run_append]
  cases run line first s <;> rfl

theorem next?_cons (line : Nat) (move : Move) (rest : List Move) (s : State) :
    next? line (move :: rest) s = (next? line [move] s).bind (next? line rest) :=
  next?_append line [move] rest s

/-- Only the opening of a section leaves the number of its line in the state. -/
theorem next?_line {moves : List Move} (h : ∀ opened, .enter opened ∉ moves) (line line' : Nat) :
    next? line' moves = next? line moves := by
  induction moves with
  | nil => rfl
  | cons move rest ih =>
      have hmove : next? line' [move] = next? line [move] := by
        funext s
        cases move with
        | enter opened => exact absurd List.mem_cons_self (h opened)
        | skip | leave | enterFast | leaveFast => rfl
        | set key value =>
            simp only [next?, run, Move.apply]
            cases (s.entries s.current).value? key <;> rfl
        | expect closed =>
            simp only [next?, run, Move.apply]
            cases s.frames with
            | nil => rfl
            | cons frame outer => by_cases hopened : frame.opened = closed <;> simp [hopened]
        | expectFast => by_cases hfast : s.fastSteps = 0 <;> simp [next?, run, Move.apply, hfast]
      funext s
      rw [next?_cons, next?_cons line, hmove,
        ih fun opened hmem => h opened (List.mem_cons_of_mem move hmem)]

/-- Fields change dictionaries only, and look at no more than the current one: whatever else is in the
state, they make the same dictionaries, or are refused alike. -/
theorem next?_sets (hdicts : t.dicts = s.dicts) (hcurrent : t.current = s.current) (line : Nat)
    (fields : Payload) :
    next? line (Move.sets fields) t =
      (next? line (Move.sets fields) s).map fun filled => { t with dicts := filled.dicts } := by
  induction fields generalizing s t with
  | nil =>
      show some t = some { t with dicts := s.dicts }
      rw [← hdicts]
  | cons field rest ih =>
      have hentries : (t.entries t.current).value? field.1 = (s.entries s.current).value? field.1 := by
        unfold State.entries
        rw [hdicts, hcurrent]
      simp only [next?, Move.sets, List.map_cons, run, Move.apply, hentries]
      cases (s.entries s.current).value? field.1 with
      | some slot => rfl
      | none =>
          refine (ih (t := t.set t.current field.1 (.value field.2)) ?_ ?_).trans rfl
          · simp only [State.set, hdicts, hcurrent]
          · exact hcurrent

/-! ## Moves that fields pass -/

/-- A move that neither looks at a dictionary nor changes one, and leaves all sections open. -/
inductive Move.SparesDicts : Move → Prop where
  | expect (closed : Section) : SparesDicts (.expect closed)
  | enterFast : SparesDicts .enterFast
  | expectFast : SparesDicts .expectFast
  | leaveFast : SparesDicts .leaveFast

namespace Move.SparesDicts

variable {move : Move}

/-- Such a move leads to the same state but for the dictionaries, whatever these are. -/
theorem next?_eq (h : move.SparesDicts) (line : Nat) (s : State) (dicts : Array (Entries Slot)) :
    next? line [move] { s with dicts } = (next? line [move] s).map fun t => { t with dicts } := by
  cases h with
  | expect closed =>
      obtain ⟨own, steps, frames, fastSteps⟩ := s
      cases frames with
      | nil => rfl
      | cons frame outer =>
          by_cases hopened : frame.opened = closed <;> simp [next?, run, apply, hopened]
  | enterFast => rfl
  | expectFast => by_cases hfast : s.fastSteps = 0 <;> simp [next?, run, apply, hfast]
  | leaveFast => rfl

theorem unchanged (h : move.SparesDicts) (hreached : next? line [move] s = some t) :
    t.dicts = s.dicts ∧ t.current = s.current := by
  have hstep := run_singleton (next?_eq_some_iff.mp hreached)
  cases h with
  | expect closed | enterFast | expectFast | leaveFast =>
      cases hstep
      exact ⟨rfl, rfl⟩

/-- Fields can be set before such a move or behind it. -/
theorem comm (h : move.SparesDicts) (line : Nat) (fields : Payload) (s : State) :
    (next? line [move] s).bind (next? line (Move.sets fields)) =
      (next? line (Move.sets fields) s).bind (next? line [move]) := by
  -- Behind the move the fields make the dictionaries that they make before it.
  have hbehind : (next? line [move] s).bind (next? line (Move.sets fields)) =
      (next? line (Move.sets fields) s).bind fun filled =>
        (next? line [move] s).map fun t => { t with dicts := filled.dicts } := by
    cases hmove : next? line [move] s with
    | none => cases next? line (Move.sets fields) s <;> rfl
    | some t =>
        obtain ⟨hdicts, hcurrent⟩ := h.unchanged hmove
        rw [Option.bind_some, next?_sets hdicts hcurrent]
        cases next? line (Move.sets fields) s <;> rfl
  rw [hbehind]
  refine Option.bind_congr fun filled hfilled => ?_
  have hstate : filled = { s with dicts := filled.dicts } := by
    have hsets := next?_sets (t := s) (s := s) rfl rfl line fields
    rw [hfilled] at hsets
    exact Option.some.inj hsets
  conv_rhs => rw [hstate]
  exact (h.next?_eq line s filled.dicts).symm

end Move.SparesDicts

/-! ## Two lines for one -/

/-- The moves of a marker with fields. -/
def Move.ofMarker (fields : Payload) : Marker → List Move
  | .remark => Move.sets fields
  | .opens opened => .enter opened :: Move.sets fields
  | .closes closed => .expect closed :: Move.sets fields ++ [.leave]
  | .beginsFastSteps => Move.sets fields ++ [.enterFast]
  | .endsFastSteps => .expectFast :: Move.sets fields ++ [.leaveFast]

/-- Fields that are set behind a marker. -/
theorem next?_behind {marker : Marker} (h : marker.TakesBehind) (line : Nat) (fields : Payload)
    (s : State) :
    next? line (Move.ofMarker fields marker) s =
      (next? line (Move.ofMarker [] marker) s).bind (next? line (Move.sets fields)) := by
  cases marker with
  | remark | closes closed => exact h.elim
  | opens opened => exact next?_append line [.enter opened] (Move.sets fields) s
  | beginsFastSteps =>
      show next? line (Move.sets fields ++ [.enterFast]) s = _
      rw [next?_append, ← Move.SparesDicts.enterFast.comm]
      rfl
  | endsFastSteps =>
      show next? line (.expectFast :: (Move.sets fields ++ [.leaveFast])) s =
        (next? line [.expectFast, .leaveFast] s).bind _
      rw [next?_cons, next?_cons line .expectFast [.leaveFast], Option.bind_assoc]
      refine Option.bind_congr fun t _ => ?_
      rw [next?_append, Move.SparesDicts.leaveFast.comm]

/-- Fields that are set before a marker. -/
theorem next?_before {marker : Marker} (h : marker.TakesBefore) (line : Nat) (fields : Payload)
    (s : State) :
    next? line (Move.ofMarker fields marker) s =
      (next? line (Move.sets fields) s).bind (next? line (Move.ofMarker [] marker)) := by
  -- What is to be closed is looked for before the fields are set; they can be set before.
  have hpass {check : Move} (hcheck : check.SparesDicts) (last : Move) :
      next? line (check :: (Move.sets fields ++ [last])) s =
        (next? line (Move.sets fields) s).bind (next? line [check, last]) := by
    rw [next?_cons]
    simp only [next?_append]
    rw [← Option.bind_assoc, hcheck.comm, Option.bind_assoc]
    exact Option.bind_congr fun t _ => (next?_cons line check [last] t).symm
  cases marker with
  | remark | opens opened => exact h.elim
  | closes closed => exact hpass (.expect closed) .leave
  | beginsFastSteps => exact next?_append line (Move.sets fields) [.enterFast] s
  | endsFastSteps => exact hpass .expectFast .leaveFast

section Split

variable {header : Header} {following : List String} {bare note first second : String}

theorem Move.ofLine_of_read (hread : Header.read? bare = some header) (indicator : String)
    (following : List String) :
    Move.ofLine indicator bare following =
      Move.ofMarker (Payload.decode indicator following header.payload)
        (Marker.ofLabel header.label) := by
  simp only [Move.ofLine, Record.read?, hread, Option.map_some]
  rfl

theorem Move.ofLine_of_isBare (h : IsBare header bare) (indicator : String) (following : List String) :
    Move.ofLine indicator bare following = Move.ofMarker [] (Marker.ofLabel header.label) :=
  Move.ofLine_of_read h indicator following

/-- The payload is decoded alike on the other line, since no field of it is an array. -/
theorem Move.ofLine_of_carriesPayload (h : CarriesPayload header note)
    (hscalar : ∀ key ∈ (Payload.decode indicator following header.payload).keys,
      ¬Payload.ArrayKey indicator key) (following' : List String) :
    Move.ofLine indicator note following' =
      Move.sets (Payload.decode indicator following header.payload) := by
  obtain ⟨written, hread, hmarker, hpayload⟩ := h
  rw [Move.ofLine_of_read hread, hmarker, hpayload, ← Payload.decode_congr hscalar]
  rfl

/-- The two lines lead to the state that the one line leads to. -/
theorem next?_split {whole : String} (hread : Header.read? whole = some header)
    (hscalar : ∀ key ∈ (Payload.decode indicator following header.payload).keys,
      ¬Payload.ArrayKey indicator key) (hsplit : Splits header first second) (line : Nat)
    (more more' : List String) (s : State) :
    (next? line (Move.ofLine indicator first more) s).bind
        (next? (line + 1) (Move.ofLine indicator second more')) =
      next? line (Move.ofLine indicator whole following) s := by
  rw [Move.ofLine_of_read hread]
  cases hsplit with
  | behind hmarker hbare hnote =>
      have hsets : ∀ opened,
          .enter opened ∉ Move.sets (Payload.decode indicator following header.payload) := by
        intro opened hmem
        obtain ⟨field, -, hfield⟩ := List.mem_map.mp hmem
        cases hfield
      rw [Move.ofLine_of_isBare hbare, Move.ofLine_of_carriesPayload hnote hscalar,
        next?_line hsets line]
      exact (next?_behind hmarker line _ s).symm
  | before hmarker hbare hnote =>
      have hmoves : ∀ opened, .enter opened ∉ Move.ofMarker [] (Marker.ofLabel header.label) := by
        intro opened hmem
        generalize Marker.ofLabel header.label = marker at hmarker hmem
        cases marker with
        | remark | opens => exact hmarker.elim
        | closes | beginsFastSteps | endsFastSteps => simp [Move.ofMarker, Move.sets] at hmem
      rw [Move.ofLine_of_isBare hbare, Move.ofLine_of_carriesPayload hnote hscalar,
        next?_line hmoves line]
      exact (next?_before hmarker line _ s).symm

end Split

/-- The document of a log whose first line is carried out is that of the rest. -/
theorem toOption_finish_runLines_cons (options : Options) (line : Nat) (read : String)
    (following : List String) (s : State) :
    ((runLines options.arrayIndicator line (read :: following) s).finish options).toOption =
      (next? line (Move.ofLine options.arrayIndicator read following) s).bind fun t =>
        ((runLines options.arrayIndicator (line + 1) following t).finish options).toOption := by
  unfold next?
  rw [runLines]
  cases run line (Move.ofLine options.arrayIndicator read following) s <;> rfl

end Builder

namespace Document

open Builder

variable {options : Options} {before after : List String} {whole first second : String}
  {header : Header}

/-- The fields of a marker belong to the section that is opened or closed: a log with a marker line that
has no array, and the log with that line split in two, have the same document, or neither has one. -/
theorem toOption_ofLines_split (hread : Header.read? whole = some header)
    (hscalar : ∀ key ∈ (Payload.decode options.arrayIndicator after header.payload).keys,
      ¬Payload.ArrayKey options.arrayIndicator key) (hsplit : Splits header first second) :
    (ofLines options (before ++ first :: second :: after)).toOption =
      (ofLines options (before ++ whole :: after)).toOption := by
  have hwhole : isRecordLine whole = true := isRecordLine_of_read? hread
  have hfirst : isRecordLine first = true := by
    cases hsplit with
    | behind _ hbare => exact isRecordLine_of_read? hbare
    | before _ _ hnote =>
        obtain ⟨note, hnote, -⟩ := hnote
        exact isRecordLine_of_read? hnote
  -- The lines before are carried out alike, since a record line follows them.
  have hafresh {line : String} (h : isRecordLine line = true) (more : List String) :
      NoArrayAcross options.arrayIndicator before (line :: more) := by
    refine .inl ?_
    rintro other ⟨⟩
    exact .inr h
  unfold ofLines
  rw [runLines_append, runLines_append, Move.ofLines_of_noArrayAcross (hafresh hwhole after),
    Move.ofLines_of_noArrayAcross (hafresh hfirst (second :: after)), ← runLines_eq_runMoves]
  cases hbefore : runLines options.arrayIndicator 1 before .initial with
  | refused error last => rfl
  | reached s =>
      have hstacked := stacked_of_runLines .initial (.nil 1) hbefore
      have howned := owned_of_runLines hbefore
      dsimp only
      simp only [toOption_finish_runLines_cons]
      rw [← Option.bind_assoc, next?_split hread hscalar hsplit]
      refine Option.bind_congr fun t ht => ?_
      rw [finish_runLines_succ (hstacked.ofLine howned (next?_eq_some_iff.mp ht))]
      generalize (runLines options.arrayIndicator _ after t).finish options = result
      cases result <;> rfl

/-- The beginning of a log, up to the end of a section. -/
def solveLog : List String :=
  ["[INFO][rank 0][MRI][begin-step-attempt] h = 2",
    "[INFO][rank 0][MRI][begin-nls] k = 1"]

/-- The document of that log, when the section ends with `iters = 3`. -/
def solveDocument : Document where
  globals := []
  steps :=
    [[("level", .value (.integer 0)), ("h", .value (.integer 2)),
      ("nls", .dict [("k", .value (.integer 1)), ("iters", .value (.integer 3))])]]

/-- The fields of the end of a section are set in it on a line before. A key that is there already is
refused there, too; and a region of fast steps takes its fields on both sides. -/
theorem toOption_ofLines_split_solve :
    (ofLines {} (solveLog ++ "[A][rank 7][][note] iters = 3" :: "[I][rank 0][][end-nls]" ::
        [])).toOption = some solveDocument ∧
      (ofLines {} (solveLog ++ "[A][rank 7][][note] k = 3" :: "[I][rank 0][][end-nls]" ::
        [])).toOption = none ∧
      (ofLines {} (solveLog ++ "[I][rank 0][][begin-fast-steps]" :: "[I][rank 0][][note] c = 1" ::
          [])).toOption =
        (ofLines {} (solveLog ++ "[I][rank 0][][note] c = 1" :: "[I][rank 0][][begin-fast-steps]" ::
          [])).toOption := by
  have hset := @toOption_ofLines_split {} solveLog [] "[I][rank 0][][end-nls] iters = 3" _ _
    ⟨"I", 0, "", "end-nls", " iters = 3"⟩ (by decide +kernel) (by decide +kernel)
      (@Splits.before _ "[I][rank 0][][end-nls]" "[A][rank 7][][note] iters = 3" (by decide +kernel)
        (by decide +kernel) (by decide +kernel))
  have htwice := @toOption_ofLines_split {} solveLog [] "[I][rank 0][][end-nls] k = 3" _ _
    ⟨"I", 0, "", "end-nls", " k = 3"⟩ (by decide +kernel) (by decide +kernel)
      (@Splits.before _ "[I][rank 0][][end-nls]" "[A][rank 7][][note] k = 3" (by decide +kernel)
        (by decide +kernel) (by decide +kernel))
  have hregion {first second : String} (hsplit : Splits _ first second) :=
    @toOption_ofLines_split {} solveLog [] "[I][rank 0][][begin-fast-steps] c = 1" first second
      ⟨"I", 0, "", "begin-fast-steps", " c = 1"⟩ (by decide +kernel) (by decide +kernel) hsplit
  have hbehind := hregion (@Splits.behind _ "[I][rank 0][][begin-fast-steps]"
    "[I][rank 0][][note] c = 1" (by decide +kernel) (by decide +kernel) (by decide +kernel))
  have hbefore := hregion (@Splits.before _ "[I][rank 0][][begin-fast-steps]"
    "[I][rank 0][][note] c = 1" (by decide +kernel) (by decide +kernel) (by decide +kernel))
  refine ⟨hset.trans ?_, htwice.trans ?_, hbehind.trans hbefore.symm⟩
  · decide +kernel
  · decide +kernel

end Document

end SolverLog
