import SolverLog.Proofs.Transition

/-!
# The depths of the open sections

A section that is opened gets a depth that is one more than that of the section around it. So the
depths count the open sections from the outermost one, whose depth is 1.

* `Counted` — the depths of some open sections count them; every transition preserves it
  (`Counted.step`).
* `depth_of_runLines` — the depth of a section that is open after some lines.
-/

namespace SolverLog.Builder

/-- The depths of some open sections, innermost first, count them. -/
inductive Counted : List Frame → Prop where
  | nil : Counted []
  | cons {frame : Frame} {outer : List Frame} (hdepth : frame.depth = outer.length + 1)
      (houter : Counted outer) : Counted (frame :: outer)

namespace Counted

variable {frames : List Frame} {s t : State} {line : Nat} {move : Move}

theorem tail (h : Counted frames) : Counted frames.tail := by
  cases h with
  | nil => exact .nil
  | cons _ houter => exact houter

/-- The innermost section stands at the height of the stack. -/
theorem depth_eq (h : Counted s.frames) : s.depth = s.frames.length := by
  unfold State.depth
  cases hframes : s.frames with
  | nil => rfl
  | cons frame outer =>
      rw [hframes] at h
      cases h with
      | cons hdepth _ => exact hdepth

/-- Every transition keeps the depths right. -/
theorem step (h : Counted s.frames) (hstep : Transition line s move t) : Counted t.frames := by
  cases move with
  | skip | expect _ | enterFast | expectFast | leaveFast =>
      cases hstep
      exact h
  | set key value =>
      cases hstep
      exact h
  | leave =>
      cases hstep
      exact h.tail
  | enter opened =>
      obtain ⟨dict, hframes⟩ := hstep.frames_enter
      rw [hframes]
      exact .cons (congrArg (· + 1) h.depth_eq) h

/-- A section stands on those that were opened before it and are still open. -/
theorem depth_of_getElem? (h : Counted frames) {index : Nat} {frame : Frame}
    (hframe : frames.reverse[index]? = some frame) : frame.depth = index + 1 := by
  induction h with
  | nil => simp at hframe
  | @cons innermost outer hdepth _ ih =>
      rw [List.reverse_cons, List.getElem?_append] at hframe
      split at hframe
      · exact ih hframe
      · next hge =>
          obtain ⟨hindex, rfl⟩ := List.getElem?_eq_some_iff.mp hframe
          simp only [List.length_reverse, List.length_singleton] at hge hindex
          have hlast : index = outer.length := by omega
          simpa [hlast] using hdepth

end Counted

/-- The depths of the sections that are open after some lines count them. -/
theorem counted_of_runLines {indicator : String} {number : Nat} {lines : List String} {s : State}
    (h : runLines indicator number lines .initial = .reached s) : Counted s.frames :=
  runLines_invariant (P := fun s => Counted s.frames) Counted.step .nil h

/-- Of the sections that are open after some lines, the outermost has the depth 1, and every other one
has the next depth after the one around it. -/
theorem depth_of_runLines {indicator : String} {number : Nat} {lines : List String} {s : State}
    (h : runLines indicator number lines .initial = .reached s) {index : Nat} {frame : Frame}
    (hframe : s.frames.reverse[index]? = some frame) : frame.depth = index + 1 :=
  (counted_of_runLines h).depth_of_getElem? hframe

end SolverLog.Builder
