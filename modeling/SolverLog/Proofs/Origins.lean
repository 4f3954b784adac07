import SolverLog.Proofs.Inside
import SolverLog.Proofs.Register

/-!
# Where the values of a document come from

A value that a dictionary holds was set by a record, as one of its fields, or it is the time level
that an attempt put into its new dictionary. Nothing else sets values.

* `Transition.values`, `RecordStep.values` — the values after a move, and after a record.
* `Origins` — where the values of a state come from; every record preserves it (`Origins.record`).
* `Document.HasAt` — the dictionaries of a document with their paths.
* `Owned.exists_of_hasAt`, `origins_of_ofLines` — where the values of a document come from.
-/

namespace SolverLog

/-- A dictionary stands at a path of a document. -/
inductive Document.HasAt (document : Document) : Path → Dict → Prop where
  | globals : HasAt document .globals document.globals
  | step {index : Nat} {dict : Dict} (hstep : document.steps[index]? = some dict) :
      HasAt document (.step index) dict
  | member {parent : Path} {outer dict : Dict} {key : String} (houter : HasAt document parent outer)
      (hentry : (key, Node.dict dict) ∈ outer) : HasAt document (.member parent key) dict
  | element {parent : Path} {outer dict : Dict} {key : String} {items : List Dict} {index : Nat}
      (houter : HasAt document parent outer) (hentry : (key, Node.list items) ∈ outer)
      (hitem : items[index]? = some dict) : HasAt document (.element parent key index) dict

namespace Builder

variable {s t : State} {line number : Nat} {key : String} {held : Value}

/-! ## The values after a move -/

/-- The values of a new dictionary are those that it is made with, and no other one gets a value. -/
theorem State.values_addAt {fresh : Entries Slot} {place : Place}
    (hparent : ∀ parent, place.parent? = some parent → parent < s.dicts.size)
    (hfree : s.vacancy place = .free)
    (hentry : (key, Slot.value held) ∈ (s.addAt fresh place).entries number) :
    (key, Slot.value held) ∈ s.entries number ∨
      number = s.dicts.size ∧ (key, Slot.value held) ∈ fresh := by
  obtain ⟨hnew, hrest⟩ := entries_addAt fresh hparent
  by_cases hsize : number = s.dicts.size
  · subst hsize
    rw [hnew] at hentry
    exact Or.inr ⟨rfl, hentry⟩
  · left
    by_cases hplace : place.parent? = some number
    · obtain ⟨slot, hslot, hput, -⟩ := entries_addAt_parent fresh hplace (hparent _ hplace) hfree
      rw [hput] at hentry
      rcases Entries.mem_put hentry with hset | hold
      · -- What is put there is no value.
        cases hset
        cases hslot
      · exact hold
    · rwa [hrest number hsize hplace] at hentry

/-- A value was there before, it is set, or it is the time level of a step that begins. -/
theorem Transition.values {move : Move} (hstep : Transition line s move t) (howned : Owned s)
    (hentry : (key, Slot.value held) ∈ t.entries number) :
    (key, Slot.value held) ∈ s.entries number ∨ move = .set key held ∨
      move = .enter .step ∧ number = s.dicts.size ∧ key = Step.levelKey ∧
        held = .integer s.fastSteps := by
  cases hstep with
  | skip | enterAgain | expect | leave | enterFast | expectFast | leaveFast => exact Or.inl hentry
  | set hnew =>
      rw [State.entries_set s howned.current_lt] at hentry
      split at hentry
      · next heq =>
          rcases Entries.mem_put hentry with hset | hold
          · cases hset
            exact Or.inr (Or.inl rfl)
          · exact Or.inl (heq ▸ hold)
      · exact Or.inl hentry
  | @enterNew opened hfree =>
      rcases State.values_addAt (fun parent hparent => howned.parent_lt hparent) hfree hentry with
        hold | ⟨hnumber, hfresh⟩
      · exact Or.inl hold
      · cases opened with
        | plain name | entry list => cases hfresh
        | step =>
            cases List.mem_singleton.mp hfresh
            exact Or.inr (Or.inr ⟨rfl, hnumber, rfl, rfl⟩)

theorem values_sets {fields : Payload} (howned : Owned s)
    (hrun : run line (Move.sets fields) s = .reached t)
    (hentry : (key, Slot.value held) ∈ t.entries number) :
    (key, Slot.value held) ∈ s.entries number ∨ (key, held) ∈ fields := by
  rw [(entries_sets howned hrun).2, List.mem_append] at hentry
  rcases hentry with hold | hnew
  · exact Or.inl hold
  · split at hnew
    · obtain ⟨field, hfield, heq⟩ := List.mem_map.mp hnew
      cases heq
      exact Or.inr hfield
    · cases hnew

/-- A value was there before, it is a field of the record, or it is the time level of the step that
the record begins. -/
theorem RecordStep.values {record : Record} (hstep : RecordStep line record s t)
    (howned : Owned s) (hentry : (key, Slot.value held) ∈ t.entries number) :
    (key, Slot.value held) ∈ s.entries number ∨ (key, held) ∈ record.payload ∨
      Marker.ofLabel record.label = .opens .step ∧ number = s.dicts.size ∧
        key = Step.levelKey ∧ held = .integer s.fastSteps := by
  cases hstep with
  | remark _ hsets => exact (values_sets howned hsets hentry).imp_right Or.inl
  | closes _ _ _ hsets hleave =>
      rw [hleave] at hentry
      exact (values_sets howned hsets hentry).imp_right Or.inl
  | beginsFastSteps _ hsets hfast | endsFastSteps _ _ hsets hfast =>
      rw [hfast] at hentry
      exact (values_sets howned hsets hentry).imp_right Or.inl
  | @opens opened entered hmarker henter hsets =>
      rcases values_sets (howned.step henter) hsets hentry with hbefore | hfield
      · rcases henter.values howned hbefore with hold | heq | ⟨heq, hlevel⟩
        · exact Or.inl hold
        · cases heq
        · cases heq
          exact Or.inr (Or.inr ⟨hmarker, hlevel⟩)
      · exact Or.inr (Or.inl hfield)

/-! ## The values of a log -/

/-- Every value of a state is one of the fields that records may have, or the time level of the attempt
whose dictionary holds it. -/
structure Origins (fields : String × Value → Prop) (path : Nat → Path) (s : State)
    (attempts : List Attempt) : Prop where
  of_mem : ∀ {number : Nat} {key : String} {held : Value},
    (key, Slot.value held) ∈ s.entries number → fields (key, held) ∨
      ∃ attempt ∈ attempts, attempt.path = path number ∧ key = Step.levelKey ∧
        held = .integer attempt.level

variable {fields : String × Value → Prop} {path path' : Nat → Path} {done : List Attempt}

theorem Origins.initial : Origins fields path .initial [] where
  of_mem := by simp [State.entries_initial]

/-- The values after a record. -/
theorem Origins.record (h : Origins fields path s done) {draft draft' : Draft}
    (hdraws : Draws path s draft) (hdraws' : Draws path' t draft') {record : Record}
    (hrun : run line (Move.ofRecord record) s = .reached t)
    (hfields : ∀ field ∈ record.payload, fields field) :
    Origins fields path' t (draft.attemptsWith line record done draft') where
  of_mem := by
    intro number key held hentry
    have howned := hdraws.owned
    have hstep : RecordStep line record s t := .of_run hrun
    unfold Draft.attemptsWith
    rcases hstep.values howned hentry with hold | hfield | ⟨hmarker, rfl, rfl, rfl⟩
    · -- The dictionary was there before, so it has the path that it had.
      rcases h.of_mem hold with hrecord | ⟨attempt, hattempt, hpath, hlevel⟩
      · exact Or.inl hrecord
      · have hlt : number < s.dicts.size := by
          by_contra hge
          rw [State.entries_of_size_le (Nat.le_of_not_lt hge)] at hold
          cases hold
        have hsame := hdraws.paths_eq hdraws' (embedsIn_of_run howned hrun).2 hlt
        refine Or.inr ⟨attempt, ?_, hpath.trans hsame.symm, hlevel⟩
        split
        · exact List.mem_append_left _ hattempt
        · exact hattempt
    · exact Or.inl (hfields _ hfield)
    · obtain ⟨-, -, ⟨depth, hframes⟩, -⟩ := hstep.begins hmarker howned
      have htop : draft'.top = path' s.dicts.size := by
        rw [hdraws'.top_eq]
        unfold State.current
        rw [hframes]
      rw [if_pos (Marker.ofLabel_eq_opens_step.mp hmarker)]
      refine Or.inr ⟨_, List.mem_append_right _ List.mem_cons_self, htop, rfl, ?_⟩
      show Value.integer s.fastSteps = .integer draft.fastSteps
      rw [hdraws.fastSteps_eq]

/-- The dictionary at a path of the document is that of a number with that path. -/
theorem Owned.exists_of_hasAt (h : Owned s) (haddressed : Addressed s path) {place : Path}
    {dict : Dict} (hhas : s.document.HasAt place dict) :
    ∃ number < s.dicts.size, path number = place ∧ dict = s.dictOf number := by
  rw [State.document_eq h] at hhas
  induction hhas with
  | globals => exact ⟨globalsNumber, h.size_pos, haddressed.globals, rfl⟩
  | step hstep =>
      rw [List.getElem?_map, Option.map_eq_some_iff] at hstep
      obtain ⟨number, hnumber, rfl⟩ := hstep
      exact ⟨number, h.step_lt (List.mem_of_getElem? hnumber), haddressed.step hnumber, rfl⟩
  | member _ hentry ih =>
      obtain ⟨parent, -, rfl, rfl⟩ := ih
      obtain ⟨child, hchild, rfl⟩ := h.dict_mem_dictOf hentry
      exact ⟨child, h.child_lt hchild (by simp), haddressed.member hchild, rfl⟩
  | element _ hentry hitem ih =>
      obtain ⟨parent, -, rfl, rfl⟩ := ih
      obtain ⟨numbers, hlist, rfl⟩ := h.list_mem_dictOf hentry
      rw [List.getElem?_map, Option.map_eq_some_iff] at hitem
      obtain ⟨child, hchild, rfl⟩ := hitem
      exact ⟨child, h.child_lt hlist (List.mem_of_getElem? hchild), haddressed.element hlist hchild,
        rfl⟩

end Builder

/-- The values of a document are fields of the records of its log, and the time levels of the
attempts. A dictionary of the store stands at every path of the document. -/
theorem Builder.origins_of_ofLines {fields : String × Value → Prop} {options : Options}
    {lines : List String} {document : Document} (h : Document.ofLines options lines = .ok document)
    (hfields : ∀ record ∈ Record.readAll options.arrayIndicator lines,
      ∀ field ∈ record.payload, fields field) :
    ∃ s path, runLines options.arrayIndicator 1 lines .initial = .reached s ∧
      document = s.document ∧ Addressed s path ∧
        Origins fields path s (Document.attempts options lines) := by
  obtain ⟨s, hrun, hdocument⟩ := reached_of_ofLines h
  obtain ⟨path, haddressed, horigins⟩ :=
    Draws.lines_invariant (Q := fun path s _ done => Origins fields path s done)
      (fun horigins _ => horigins)
      (fun horigins hdraws hdraws' hkind hmoves _ _ => horigins.record hdraws hdraws' hmoves hkind)
      [] Origins.initial Draws.initial hrun hfields
  exact ⟨s, path, hrun, hdocument, haddressed, horigins⟩

end SolverLog
