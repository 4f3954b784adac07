import SolverLog.Proofs.Growth
import SolverLog.Proofs.Labels

/-!
# How the open sections stand on each other

The open sections are a stack: each was opened on an earlier line than those within it, and a label
opens it. The dictionary of a plain section is the one that the section below holds at its name,
whatever was read since (`Stacked`).

* `Stacked.mono` — no dictionary is taken from its key, so the stack stands in every later state.
* `Stacked.enter`, `Stacked.record`, `Stacked.ofLine` — a section that is opened, any record, any line.
* `stacked_of_runLines` — the open sections of every log are stacked.
-/

namespace SolverLog

/-- What entries hold at a key is related to what larger ones hold there. -/
theorem Entries.EmbedIn.value? {α β : Type} {R : α → β → Prop} {d : Entries α} {e : Entries β}
    (h : EmbedIn R d e) {key : String} {a : α} (hvalue : d.value? key = some a) :
    ∃ b, e.value? key = some b ∧ R a b := by
  induction h with
  | nil => cases hvalue
  | @cons other first first' rest rest' hfirst _ ih =>
      unfold Entries.value? at hvalue ⊢
      split at hvalue
      · next hkey =>
          cases hvalue
          exact ⟨first', if_pos hkey, hfirst⟩
      · next hkey =>
          rw [if_neg hkey]
          exact ih hvalue

namespace Builder

variable {s t : State} {line : Nat}

/-- A dictionary stays at its key. -/
theorem State.EmbedsIn.value?_dict (h : s.EmbedsIn t) {parent number : Nat} {key : String}
    (hvalue : (s.entries parent).value? key = some (.dict number)) :
    (t.entries parent).value? key = some (.dict number) := by
  obtain ⟨slot, hslot, hgrown⟩ := (h.entries parent).value? hvalue
  cases hgrown
  exact hslot

/-- The dictionary of the innermost of some open sections, or the globals. -/
def innermost : List Frame → Nat
  | [] => globalsNumber
  | frame :: _ => frame.dict

theorem State.current_eq (s : State) : s.current = innermost s.frames := by
  unfold State.current innermost
  cases s.frames <;> rfl

/-- Some open sections, innermost first, all opened before a line, are stacked on each other. -/
inductive Stacked (s : State) : Nat → List Frame → Prop where
  | nil (line : Nat) : Stacked s line []
  | cons {line : Nat} {frame : Frame} {outer : List Frame} (hline : frame.line < line)
      (hmember : ∀ name, frame.opened = .plain name →
        (s.entries (innermost outer)).value? name = some (.dict frame.dict))
      (hlabel : Marker.ofLabel ("begin-" ++ frame.opened.name) = .opens frame.opened)
      (houter : Stacked s frame.line outer) : Stacked s line (frame :: outer)

namespace Stacked

variable {frames : List Frame}

/-- What is stacked stays so in every later state. -/
theorem mono (h : Stacked s line frames) (hembeds : s.EmbedsIn t) {line' : Nat}
    (hline : line ≤ line') : Stacked t line' frames := by
  induction h generalizing line' with
  | nil => exact .nil line'
  | cons hfirst hmember hlabel _ ih =>
      exact .cons (Nat.lt_of_lt_of_le hfirst hline)
        (fun name hname => hembeds.value?_dict (hmember name hname)) hlabel (ih (Nat.le_refl _))

theorem tail (h : Stacked s line frames) : Stacked s line frames.tail := by
  cases h with
  | nil => exact .nil line
  | cons hfirst _ _ houter => exact houter.mono (.refl s) (Nat.le_of_lt hfirst)

/-- All sections were opened before the line. -/
theorem line_lt (h : Stacked s line frames) : ∀ frame ∈ frames, frame.line < line := by
  induction h with
  | nil => exact fun _ hframe => (List.not_mem_nil hframe).elim
  | cons hfirst _ _ _ ih =>
      intro frame hframe
      rcases List.mem_cons.mp hframe with rfl | houter
      · exact hfirst
      · exact Nat.lt_trans (ih frame houter) hfirst

/-- A section that is opened stands on those that are open. -/
theorem enter (h : Stacked s line s.frames) (howned : Owned s) {opened : Section}
    (hlabel : Marker.ofLabel ("begin-" ++ opened.name) = .opens opened)
    (hstep : Transition line s (.enter opened) t) : Stacked t (line + 1) t.frames := by
  have hembeds : s.EmbedsIn t := .step howned hstep
  have houter : Stacked t line s.frames := h.mono hembeds (Nat.le_refl line)
  cases hstep with
  | enterNew hfree =>
      unfold State.enter at hembeds houter ⊢
      simp only [State.frames_addAt] at hembeds houter ⊢
      refine .cons (Nat.lt_succ_self line) ?_ hlabel houter
      rintro name rfl
      rw [← State.current_eq]
      have hentries := (State.entries_add_set (s.newEntries (.plain name)) howned.current_lt name
        (.dict s.dicts.size)).1
      show (((s.add _).set s.current name (.dict s.dicts.size)).entries s.current).value? name = _
      rw [hentries, Entries.value?_put, if_pos rfl]
  | enterAgain hheld =>
      refine .cons (Nat.lt_succ_self line) ?_ hlabel houter
      rintro name rfl
      obtain ⟨parent, key, hplace, hvalue⟩ := State.value?_of_held hheld
      cases hplace
      rw [← State.current_eq]
      exact hvalue

/-- The open sections after a record. -/
theorem record {record : Record} (h : Stacked s line s.frames) (howned : Owned s)
    (hstep : RecordStep line record s t) : Stacked t (line + 1) t.frames := by
  -- Fields open nothing, and what is there before them only grows.
  have hfields {line' : Nat} {u v : State} (hu : Owned u) (hstacked : Stacked u line' u.frames)
      (hsets : run line (Move.sets record.payload) u = .reached v) : Stacked v line' v.frames := by
    rw [(unchanged_of_run_sets hsets).1]
    exact hstacked.mono (embedsIn_of_run hu hsets).2 (Nat.le_refl line')
  have hnext : Stacked s (line + 1) s.frames := h.mono (.refl s) (Nat.le_succ line)
  cases hstep with
  | remark _ hsets => exact hfields howned hnext hsets
  | @opens opened entered hmarker henter hsets =>
      have hlabel : Marker.ofLabel ("begin-" ++ opened.name) = .opens opened := by
        rw [← (Marker.ofLabel_eq_opens_iff.mp hmarker).2.2.2]
        exact hmarker
      exact hfields (howned.step henter) (h.enter howned hlabel henter) hsets
  | @closes closed frame outer filled _ _ _ hsets hleave =>
      have hembeds : filled.EmbedsIn { filled with frames := filled.frames.tail } := .of_eq rfl rfl
      rw [hleave]
      exact (hfields howned hnext hsets).tail.mono hembeds (Nat.le_refl _)
  | @beginsFastSteps filled _ hsets hfast =>
      have hembeds : filled.EmbedsIn { filled with fastSteps := filled.fastSteps + 1 } := .of_eq rfl rfl
      rw [hfast]
      exact (hfields howned hnext hsets).mono hembeds (Nat.le_refl _)
  | @endsFastSteps filled _ _ hsets hfast =>
      have hembeds : filled.EmbedsIn { filled with fastSteps := filled.fastSteps - 1 } := .of_eq rfl rfl
      rw [hfast]
      exact (hfields howned hnext hsets).mono hembeds (Nat.le_refl _)

/-- The open sections after a line. -/
theorem ofLine (h : Stacked s line s.frames) (howned : Owned s) {indicator read : String}
    {following : List String}
    (hrun : run line (Move.ofLine indicator read following) s = .reached t) :
    Stacked t (line + 1) t.frames := by
  rcases recordStep_of_run_ofLine hrun with ⟨-, rfl⟩ | ⟨record, -, hstep⟩
  · exact h.mono (.refl t) (Nat.le_succ line)
  · exact h.record howned hstep

end Stacked

/-- The sections that are open after some lines are stacked. -/
theorem stacked_of_runLines {indicator : String} {number : Nat} {lines : List String}
    (howned : Owned s) (h : Stacked s number s.frames)
    (hrun : runLines indicator number lines s = .reached t) :
    Stacked t (number + lines.length) t.frames := by
  induction lines generalizing number s with
  | nil =>
      cases hrun
      exact h
  | cons line following ih =>
      obtain ⟨middle, hline, hfollowing⟩ := runLines_cons_reached hrun
      have howned' : Owned middle := (embedsIn_of_run howned hline).1
      rw [List.length_cons, Nat.add_comm following.length, ← Nat.add_assoc]
      exact ih howned' (h.ofLine howned hline) hfollowing

end Builder

end SolverLog
