import Mathlib.Data.List.Basic
import SolverLog.Proofs.Labels
import SolverLog.Proofs.Store
import SolverLog.Proofs.Transition

/-!
# The bracket structure of a log

The labels alone decide whether the sections of a log nest. `Brackets` is the automaton that reads
them: it has a stack of names and a counter, and knows nothing of kinds of sections, of fields or
of dictionaries.

* `Matches` — the open sections of a state and the stack of the automaton have the same names.
* `Document.ofLines_eq_verdict` — reading a log fails as the automaton does, if no key is set twice.
-/

namespace SolverLog

/-- What the automaton knows: the names that are open with their lines, innermost first, and how
many regions of fast steps are open. -/
structure Brackets where
  stack : List (String × Nat)
  fastSteps : Nat
deriving DecidableEq

namespace Brackets

/-- The automaton before the first label. -/
def empty : Brackets where
  stack := []
  fastSteps := 0

/-- Reads the name of a label `begin-NAME`. -/
def opening (line : Nat) (name : String) (b : Brackets) : Brackets :=
  if name = "" then b
  else if name = Marker.fastStepsName then { b with fastSteps := b.fastSteps + 1 }
  else { b with stack := (name, line) :: b.stack }

/-- Reads the name of a label `end-NAME`. -/
def closing (line : Nat) (name : String) (b : Brackets) : Except StructureError Brackets :=
  if name = "" then .ok b
  else if name = Marker.fastStepsName then
    if b.fastSteps = 0 then .error (.unbalancedFastSteps line)
    else .ok { b with fastSteps := b.fastSteps - 1 }
  else
    match b.stack with
    | [] => .error (.unexpectedEnd line name)
    | (top, _) :: outer =>
      if top = name then .ok { b with stack := outer }
      else .error (.mismatchedEnd line name top)

/-- Reads a label. One that starts neither with `begin-` nor with `end-` is passed over. -/
def readLabel (line : Nat) (label : String) (b : Brackets) : Except StructureError Brackets :=
  match "begin-".toList.isPrefixOf? label.toList, "end-".toList.isPrefixOf? label.toList with
  | some name, _ => .ok (b.opening line (String.ofList name))
  | none, some name => b.closing line (String.ofList name)
  | none, none => .ok b

/-- Reads a line. Commentary is passed over. -/
def readLine (number : Nat) (line : String) (b : Brackets) : Except StructureError Brackets :=
  match Header.read? line with
  | some header => b.readLabel number header.label
  | none => .ok b

/-- Reads the lines of a log from the line of that number on. -/
def readLines : Nat → List String → Brackets → Except StructureError Brackets
  | _, [], b => .ok b
  | number, line :: following, b => (b.readLine number line).bind (readLines (number + 1) following)

/-- What the automaton says of a log: whether its sections nest, and if they have to, whether they
are all closed. -/
def verdict (requireClosed : Bool) (lines : List String) : Except StructureError Unit :=
  (readLines 1 lines empty).bind fun b =>
    match b.stack with
    | (name, line) :: _ => if requireClosed then .error (.unclosedSection line name) else .ok ()
    | [] => .ok ()

end Brackets

/-- The automaton in terms of what a label marks. -/
theorem Brackets.readLabel_eq (b : Brackets) (line : Nat) (label : String) :
    b.readLabel line label =
      match Marker.ofLabel label with
      | .remark => .ok b
      | .opens opened => .ok { b with stack := (opened.name, line) :: b.stack }
      | .closes closed =>
        match b.stack with
        | [] => .error (.unexpectedEnd line closed.name)
        | (top, _) :: outer =>
          if top = closed.name then .ok { b with stack := outer }
          else .error (.mismatchedEnd line closed.name top)
      | .beginsFastSteps => .ok { b with fastSteps := b.fastSteps + 1 }
      | .endsFastSteps =>
        if b.fastSteps = 0 then .error (.unbalancedFastSteps line)
        else .ok { b with fastSteps := b.fastSteps - 1 } := by
  unfold readLabel Marker.ofLabel
  -- Both sides look for the same words; the automaton does not build sections from them.
  cases hbegin : "begin-".toList.isPrefixOf? label.toList with
  | some name =>
      simp only [Marker.ofOpening, opening]
      by_cases hempty : name = []
      · rw [if_pos (ofList_eq_empty_iff.mpr hempty), if_pos hempty]
      · rw [if_neg (mt ofList_eq_empty_iff.mp hempty), if_neg hempty]
        by_cases hfast : name = Marker.fastStepsName.toList
        · rw [if_pos (ofList_eq_iff.mpr hfast), if_pos hfast]
        · rw [if_neg (mt ofList_eq_iff.mp hfast), if_neg hfast, ← Section.name_ofName]
  | none =>
      cases hend : "end-".toList.isPrefixOf? label.toList with
      | some name =>
          simp only [Marker.ofClosing, closing]
          by_cases hempty : name = []
          · rw [if_pos (ofList_eq_empty_iff.mpr hempty), if_pos hempty]
          · rw [if_neg (mt ofList_eq_empty_iff.mp hempty), if_neg hempty]
            by_cases hfast : name = Marker.fastStepsName.toList
            · rw [if_pos (ofList_eq_iff.mpr hfast), if_pos hfast]
            · rw [if_neg (mt ofList_eq_iff.mp hfast), if_neg hfast, ← Section.name_ofName]
      | none => rfl

namespace Builder

/-! ## The open sections of a state and the stack of the automaton -/

/-- The open sections and regions of a state are those of the automaton. -/
structure Matches (s : State) (b : Brackets) : Prop where
  stack_eq : b.stack = s.frames.map fun frame => (frame.opened.name, frame.line)
  fastSteps_eq : b.fastSteps = s.fastSteps
  named : ∀ frame ∈ s.frames, frame.opened.IsNamed

/-- The outcome of the moves of a line is what the automaton makes of its label, unless a key is set
twice; then the automaton goes on. -/
def Outcome.Agrees (line : Nat) (outcome : Outcome) (read : Except StructureError Brackets) : Prop :=
  match outcome with
  | .reached s => ∃ b, read = .ok b ∧ Matches s b
  | .refused (.duplicateKey l _ _) _ => l = line ∧ ∃ b, read = .ok b
  | .refused error _ => read = .error error

namespace Matches

variable {s : State} {b : Brackets}

theorem initial : Matches .initial .empty where
  stack_eq := rfl
  fastSteps_eq := rfl
  named := by simp [State.initial]

/-- Fields change nothing that the automaton knows. -/
theorem sets (h : Matches s b) (line : Nat) (fields : Payload) (moves : List Move)
    {read : Except StructureError Brackets} {b' : Brackets} (hread : read = .ok b')
    (hrest : ∀ s', Matches s' b → (run line moves s').Agrees line read) :
    (run line (Move.sets fields ++ moves) s).Agrees line read := by
  rw [run_append]
  -- The fields are all set, or one of them has a key that is there already.
  rcases run_sets line fields s with ⟨s', hrun, hframes, -, hfast⟩ | ⟨key, last, hrun⟩
  · rw [hrun]
    refine hrest s' ⟨?_, ?_, ?_⟩
    · rw [hframes, h.stack_eq]
    · rw [hfast, h.fastSteps_eq]
    · rw [hframes]
      exact h.named
  · rw [hrun]
    exact ⟨rfl, b', hread⟩

theorem opens (h : Matches s b) {opened : Section} (hnamed : opened.IsNamed) (line : Nat)
    (fields : Payload) :
    (run line (.enter opened :: Move.sets fields) s).Agrees line
      (.ok { b with stack := (opened.name, line) :: b.stack }) := by
  -- Whichever dictionary the section gets, the stack grows by its name.
  have hentered : ∀ s' : State, s'.frames = s.frames → s'.fastSteps = s.fastSteps → ∀ number,
      (run line (Move.sets fields) (s'.enter line opened number)).Agrees line
        (.ok { b with stack := (opened.name, line) :: b.stack }) := by
    intro s' hframes hfast number
    have hmatches : Matches (s'.enter line opened number)
        { b with stack := (opened.name, line) :: b.stack } := by
      refine ⟨?_, h.fastSteps_eq.trans hfast.symm, ?_⟩
      · simp [State.enter, hframes, h.stack_eq]
      · intro frame hframe
        rcases List.mem_cons.mp hframe with rfl | houter
        · exact hnamed
        · exact h.named frame (hframes ▸ houter)
    have hsets := hmatches.sets line fields [] rfl fun last hlast => ⟨_, rfl, hlast⟩
    rwa [List.append_nil] at hsets
  simp only [run, Move.apply]
  split
  · next s' happly =>
      split at happly
      · cases happly
        exact hentered _ (State.frames_addAt ..) (State.fastSteps_addAt ..) _
      · cases happly
        exact hentered s rfl rfl _
      · cases happly
  · next error last happly =>
      split at happly
      · cases happly
      · cases happly
      · cases happly
        exact ⟨rfl, _, rfl⟩

theorem closes (h : Matches s b) {closed : Section} (hnamed : closed.IsNamed) (line : Nat)
    (fields : Payload) :
    (run line (.expect closed :: Move.sets fields ++ [.leave]) s).Agrees line
      (match b.stack with
        | [] => .error (.unexpectedEnd line closed.name)
        | (top, _) :: outer =>
          if top = closed.name then .ok { b with stack := outer }
          else .error (.mismatchedEnd line closed.name top)) := by
  simp only [List.cons_append, run, Move.apply]
  cases hframes : s.frames with
  | nil => simp [h.stack_eq, hframes, Outcome.Agrees]
  | cons frame outer =>
      have hframe : frame.opened.IsNamed := h.named frame (by simp [hframes])
      have hstack : b.stack = (frame.opened.name, frame.line) ::
          outer.map fun frame => (frame.opened.name, frame.line) := by
        rw [h.stack_eq, hframes, List.map_cons]
      by_cases heq : frame.opened = closed
      · simp only [hstack, heq, if_true]
        apply h.sets line fields [.leave] rfl
        intro s' hs'
        refine ⟨_, rfl, ?_, hs'.fastSteps_eq, fun f hf => hs'.named f (List.mem_of_mem_tail hf)⟩
        have htail := congrArg List.tail hs'.stack_eq
        simpa [hstack] using htail
      · -- The automaton tells sections apart by their names, and labels name them.
        have hname : frame.opened.name ≠ closed.name := fun hname =>
          heq ((hframe.eq_iff hnamed).mpr hname)
        simp [hstack, heq, hname, Outcome.Agrees]

/-- A record that only sets fields. -/
theorem remark (h : Matches s b) (line : Nat) (fields : Payload) :
    (run line (Move.sets fields) s).Agrees line (.ok b) := by
  have hsets := h.sets line fields [] rfl fun last hlast => ⟨b, rfl, hlast⟩
  rwa [List.append_nil] at hsets

theorem beginsFastSteps (h : Matches s b) (line : Nat) (fields : Payload) :
    (run line (Move.sets fields ++ [.enterFast]) s).Agrees line
      (.ok { b with fastSteps := b.fastSteps + 1 }) := by
  apply h.sets line fields [.enterFast] rfl
  intro s' hs'
  exact ⟨_, rfl, hs'.stack_eq, congrArg (· + 1) hs'.fastSteps_eq, hs'.named⟩

theorem endsFastSteps (h : Matches s b) (line : Nat) (fields : Payload) :
    (run line (.expectFast :: Move.sets fields ++ [.leaveFast]) s).Agrees line
      (if b.fastSteps = 0 then .error (.unbalancedFastSteps line)
        else .ok { b with fastSteps := b.fastSteps - 1 }) := by
  simp only [List.cons_append, run, Move.apply, h.fastSteps_eq]
  by_cases hzero : s.fastSteps = 0
  · simp [hzero, Outcome.Agrees]
  · simp only [hzero, if_false]
    apply h.sets line fields [.leaveFast] rfl
    intro s' hs'
    exact ⟨_, rfl, hs'.stack_eq, by rw [← h.fastSteps_eq, hs'.fastSteps_eq], hs'.named⟩

/-- The moves of a record agree with what the automaton makes of its label. -/
theorem record (h : Matches s b) (line : Nat) (record : Record) :
    (run line (Move.ofRecord record) s).Agrees line (b.readLabel line record.label) := by
  rw [Brackets.readLabel_eq, Move.ofRecord_eq]
  have hnamed := Marker.isNamed_ofLabel record.label
  generalize Marker.ofLabel record.label = marker at hnamed ⊢
  cases marker with
  | remark => exact h.remark line record.payload
  | opens opened => exact h.opens hnamed line record.payload
  | closes closed => exact h.closes hnamed line record.payload
  | beginsFastSteps => exact h.beginsFastSteps line record.payload
  | endsFastSteps => exact h.endsFastSteps line record.payload

/-- The moves of a line agree with what the automaton makes of it. -/
theorem line (h : Matches s b) (indicator : String) (number : Nat) (line : String)
    (following : List String) :
    (run number (Move.ofLine indicator line following) s).Agrees number
      (b.readLine number line) := by
  unfold Move.ofLine Record.read? Brackets.readLine
  cases Header.read? line with
  | none => exact ⟨b, rfl, h⟩
  | some header =>
      exact h.record number
        { level := header.level
          rank := header.rank
          scope := header.scope
          label := header.label
          payload := Payload.decode indicator following header.payload }

end Matches

/-- The outcome of the lines of a log from a number on is what the automaton makes of them, unless a
key is set twice; then the automaton goes on to the end of that line. -/
def Outcome.AgreesOn (number : Nat) (lines : List String) (b : Brackets) : Outcome → Prop
  | .reached s => ∃ b', Brackets.readLines number lines b = .ok b' ∧ Matches s b'
  | .refused (.duplicateKey line _ _) _ =>
    ∃ before < lines.length, line = number + before ∧
      ∃ b', Brackets.readLines number (lines.take (before + 1)) b = .ok b'
  | .refused error _ => Brackets.readLines number lines b = .error error

/-- A first line that the automaton gets past can be put in front. -/
theorem Outcome.AgreesOn.cons {number : Nat} {line : String} {following : List String}
    {b b' : Brackets} (hline : b.readLine number line = .ok b') {outcome : Outcome}
    (h : outcome.AgreesOn (number + 1) following b') :
    outcome.AgreesOn number (line :: following) b := by
  have hcons : ∀ lines, Brackets.readLines number (line :: lines) b =
      Brackets.readLines (number + 1) lines b' := by
    intro lines
    rw [Brackets.readLines, hline]
    rfl
  unfold AgreesOn at h ⊢
  split
  · rw [hcons]
    exact h
  · rcases h with ⟨before, hlt, rfl, hread⟩
    refine ⟨before + 1, Nat.succ_lt_succ hlt, by omega, ?_⟩
    rw [List.take_succ_cons, hcons]
    exact hread
  · rw [hcons]
    simpa using h

/-- A first line that is refused. -/
theorem Outcome.AgreesOn.of_refused {number : Nat} {line : String} {error : StructureError}
    {last : State} {b : Brackets}
    (h : (Outcome.refused error last).Agrees number (b.readLine number line))
    (following : List String) :
    (Outcome.refused error last).AgreesOn number (line :: following) b := by
  -- The automaton does not know of keys, so it gets past a line that sets one twice.
  cases error with
  | duplicateKey l key place =>
      rcases h with ⟨rfl, b', hread⟩
      refine ⟨0, by simp, rfl, b', ?_⟩
      simp [Brackets.readLines, hread, Except.bind]
  | mismatchedEnd | unexpectedEnd | unbalancedFastSteps | unclosedSection =>
      have hread : b.readLine number line = .error _ := h
      simp [Outcome.AgreesOn, Brackets.readLines, hread, Except.bind]

theorem Matches.runLines {indicator : String} {lines : List String} {number : Nat} {s : State}
    {b : Brackets} (h : Matches s b) :
    (runLines indicator number lines s).AgreesOn number lines b := by
  induction lines generalizing number s b with
  | nil => exact ⟨b, rfl, h⟩
  | cons line following ih =>
      have hline := h.line indicator number line following
      simp only [Builder.runLines]
      cases hrun : run number (Move.ofLine indicator line following) s with
      | reached s' =>
          rw [hrun] at hline
          rcases hline with ⟨b', hread, hs'⟩
          exact (ih hs').cons hread
      | refused error last =>
          rw [hrun] at hline
          exact .of_refused hline following

end Builder

/-- What the automaton says of a log agrees with its document: where no key is set twice, reading
the log ends as the automaton does, and where one is, the automaton gets to the end of that line. -/
theorem Document.ofLines_eq_verdict (options : Options) (lines : List String) :
    match Document.ofLines options lines with
    | .error (.duplicateKey line _ _) =>
      1 ≤ line ∧ line ≤ lines.length ∧ ∃ b, Brackets.readLines 1 (lines.take line) .empty = .ok b
    | result => result.map (fun _ => ()) = Brackets.verdict options.requireClosed lines := by
  have hagrees : (Builder.runLines options.arrayIndicator 1 lines .initial).AgreesOn 1 lines
      .empty :=
    Builder.Matches.initial.runLines
  unfold Document.ofLines Brackets.verdict
  cases hrun : Builder.runLines options.arrayIndicator 1 lines .initial with
  | reached s =>
      rw [hrun] at hagrees
      rcases hagrees with ⟨b, hread, hs⟩
      cases hframes : s.frames with
      | nil =>
          have hstack : b.stack = [] := by rw [hs.stack_eq, hframes, List.map_nil]
          simp [Builder.Outcome.finish, Builder.State.finish, hframes, hstack, hread, Except.map, Except.bind]
      | cons frame outer =>
          have hstack : b.stack = (frame.opened.name, frame.line) ::
              outer.map fun frame => (frame.opened.name, frame.line) := by
            rw [hs.stack_eq, hframes, List.map_cons]
          -- A section that is open at the end is an error only if it has to be closed.
          cases hclosed : options.requireClosed with
          | false =>
              simp [Builder.Outcome.finish, Builder.State.finish, hframes, hstack, hread, hclosed, Except.map,
                Except.bind]
          | true =>
              simp [Builder.Outcome.finish, Builder.State.finish, hframes, hstack, hread, hclosed, Except.map,
                Except.bind]
  | refused error last =>
      rw [hrun] at hagrees
      cases error with
      | duplicateKey line key place =>
          rcases hagrees with ⟨before, hlt, rfl, hread⟩
          refine ⟨by omega, by omega, ?_⟩
          rwa [Nat.add_comm]
      | mismatchedEnd | unexpectedEnd | unbalancedFastSteps | unclosedSection =>
          have hread : Brackets.readLines 1 lines .empty = .error _ := hagrees
          simp [Builder.Outcome.finish, hread, Except.map, Except.bind]

end SolverLog
