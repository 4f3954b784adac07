import Mathlib.Data.List.Perm.Basic
import SolverLog.Proofs.Levels
import SolverLog.Proofs.Visits

/-!
# The history visits what is reachable

The history of a field goes from the top-level steps into the lists of fast steps, and from these on.
It comes to the steps of the reachable attempts, to each of them once, and to no other ones.

* `Owned.nodup_visits` — no dictionary is visited twice.
* `Registers.visits_perm` — the visited dictionaries are those of the reachable attempts.
* `History.points_reachable` — the history of the time levels has one point for each reachable attempt.
-/

namespace SolverLog

open History (isTimeLevelKey)

/-- A step with its level first has a point with that level. -/
theorem History.point?_of_head? {step : Dict} {level : Int}
    (h : step.head? = some (Step.levelKey, .value (.integer level))) :
    ∃ point, Query.point? { key := Step.levelKey } step = some point ∧ point.level = level := by
  obtain ⟨rest, rfl⟩ := List.head?_eq_some_iff.mp h
  have hfield : Dict.field? ((Step.levelKey, .value (.integer level)) :: rest) Step.levelKey =
      some (.integer level) := by
    simp [Dict.field?, Entries.value?, Node.value?]
  have haccepts : Query.accepts { key := Step.levelKey }
      ((Step.levelKey, .value (.integer level)) :: rest) = true := by
    simp [Query.accepts, Query.acceptsStatus, Query.acceptsTime, Query.acceptsNumber,
      Query.acceptsLevel]
  have hlevel : integerAt? ((Step.levelKey, .value (.integer level)) :: rest) Step.levelKey =
      some level := by
    unfold integerAt?
    rw [hfield]
    rfl
  unfold Query.point?
  simp only [hfield, haccepts, hlevel, if_true]
  exact ⟨_, rfl, rfl⟩

namespace Builder

variable {s : State} {path : Nat → Path} {lines : List String} {register : List (Nat × Attempt)}
  {lists : String → Prop}

/-! ## Nothing is visited twice -/

theorem pairwise_disjoint {items : List Nat} (hnodup : items.Nodup) {f : Nat → List Nat}
    (h : ∀ a ∈ items, ∀ b ∈ items, ∀ number, number ∈ f a → number ∈ f b → a = b) :
    items.Pairwise (Function.onFun List.Disjoint f) := by
  refine hnodup.imp_of_mem ?_
  intro a b ha hb hne number hfirst hsecond
  exact hne (h a ha b hb number hfirst hsecond)

theorem Owned.nodup_walk (h : Owned s) (number : Nat) : (s.walk number).Nodup := by
  -- The induction goes from the last dictionary down.
  induction hsize : s.dicts.size - number using Nat.strong_induction_on generalizing number with
  | _ size ih =>
      rw [h.walk_eq, List.nodup_cons, List.nodup_flatMap]
      refine ⟨?_, ?_, pairwise_disjoint (h.nodup_nested number) ?_⟩
      · intro hmem
        obtain ⟨child, hchild, hwalk⟩ := List.mem_flatMap.mp hmem
        have hlt := h.nested_lt hchild
        have hle := h.walk_le hwalk
        omega
      · intro child hchild
        have hlt := h.nested_lt hchild
        exact ih (s.dicts.size - child) (by omega) child rfl
      · intro a ha b hb other hother hother'
        exact h.eq_of_within (heldBy_of_mem_nested ha) (heldBy_of_mem_nested hb)
          (h.within_of_mem_walk hother) (h.within_of_mem_walk hother')

theorem Owned.nodup_visits (h : Owned s) : s.visits.Nodup := by
  unfold State.visits
  rw [List.nodup_flatMap]
  refine ⟨fun step _ => h.nodup_walk step, pairwise_disjoint h.nodup_steps ?_⟩
  intro a ha b hb other hother hother'
  exact h.eq_of_within_unheld (h.not_mem_numbersOf_of_mem_steps ha)
    (h.not_mem_numbersOf_of_mem_steps hb) (h.within_of_mem_walk hother)
    (h.within_of_mem_walk hother')

/-! ## What is visited -/

/-- The steps right within a dictionary are the elements of its lists of fast steps. -/
theorem State.mem_nested_iff {parent child : Nat} :
    child ∈ s.nested parent ↔ ∃ key numbers, isTimeLevelKey key = true ∧
      (key, Slot.list numbers) ∈ s.entries parent ∧ child ∈ numbers := by
  unfold State.nested
  rw [List.mem_flatMap]
  constructor
  · rintro ⟨⟨key, slot⟩, hentry, hchild⟩
    unfold levelElements at hchild
    split at hchild
    · next hkey =>
        cases slot with
        | value held => cases hchild
        | dict number => cases hchild
        | list numbers => exact ⟨key, numbers, hkey, hentry, hchild⟩
    · cases hchild
  · rintro ⟨key, numbers, hkey, hentry, hchild⟩
    refine ⟨_, hentry, ?_⟩
    unfold levelElements
    rw [if_pos hkey]
    exact hchild

/-- A fast step is reachable just if its host is. -/
theorem Registers.reachable_iff_of_nested (h : Registers lists path s lines register)
    (howned : Owned s) (hlists : ∀ key, isTimeLevelKey key = true → ¬lists key) {parent child : Nat}
    (hchild : child ∈ s.nested parent) :
    ∃ entry ∈ register, entry.1 = child ∧
      (entry.2.reachable = true ↔ ∃ host ∈ register, host.1 = parent ∧ host.2.reachable = true) := by
  obtain ⟨key, numbers, hkey, hentry, hmem⟩ := State.mem_nested_iff.mp hchild
  obtain ⟨entry, hreg, rfl⟩ :=
    List.mem_map.mp ((h.listed hentry hmem).resolve_right (hlists key hkey))
  obtain ⟨-, rfl, hreachable⟩ := h.held howned hreg hentry hmem
  have hlevel : entry.2.level ≠ 0 := Attempt.isTimeLevelKey_listKey.mp hkey
  exact ⟨entry, hreg, rfl, hreachable.trans (and_iff_right hlevel)⟩

theorem Registers.reachable_of_visited (h : Registers lists path s lines register)
    (howned : Owned s) (hlists : ∀ key, isTimeLevelKey key = true → ¬lists key) {number : Nat}
    (hvisited : number ∈ s.visits) :
    ∃ entry ∈ register, entry.1 = number ∧ entry.2.reachable = true := by
  -- What is visited is a top-level step, or right within something visited with a smaller number.
  induction number using Nat.strong_induction_on with
  | _ number ih =>
      rcases howned.visits_parent hvisited with hstep | ⟨parent, hparent, hchild⟩
      · rw [h.steps_eq] at hstep
        obtain ⟨entry, hentry, hnumber⟩ := List.mem_map.mp hstep
        obtain ⟨hmem, houtermost⟩ := List.mem_filter.mp hentry
        exact ⟨entry, hmem, hnumber, h.outermost entry hmem houtermost⟩
      · obtain ⟨entry, hentry, hnumber, hreachable⟩ :=
          h.reachable_iff_of_nested howned hlists hchild
        have hlt := (howned.nested_lt hchild).1
        exact ⟨entry, hentry, hnumber, hreachable.mpr (ih parent hlt hparent)⟩

theorem Registers.visited_of_reachable (h : Registers lists path s lines register)
    (howned : Owned s) {entry : Nat × Attempt} (hentry : entry ∈ register)
    (hreachable : entry.2.reachable = true) : entry.1 ∈ s.visits := by
  -- A reachable attempt is outermost, or in a list of a reachable one with a smaller number.
  induction hnumber : entry.1 using Nat.strong_induction_on generalizing entry with
  | _ number ih =>
      subst hnumber
      cases houtermost : entry.2.outermost with
      | true =>
          have hstep : entry.1 ∈ s.steps.toList := by
            rw [h.steps_eq]
            exact List.mem_map_of_mem (List.mem_filter.mpr ⟨hentry, houtermost⟩)
          exact List.mem_flatMap.mpr ⟨entry.1, hstep, howned.self_mem_walk entry.1⟩
      | false =>
          obtain ⟨parent, numbers, hlist, hmem, hiff⟩ := (h.inner entry hentry houtermost).listed
          obtain ⟨hlevel, host, hhost, rfl, hhostReachable⟩ := hiff.mp hreachable
          have hchild : entry.1 ∈ s.nested host.1 := State.mem_nested_iff.mpr
            ⟨_, numbers, Attempt.isTimeLevelKey_listKey.mpr hlevel, hlist, hmem⟩
          have hlt := (howned.nested_lt hchild).1
          exact howned.mem_visits_of_nested (ih host.1 hlt hhost hhostReachable rfl) hchild

/-- What is visited are the dictionaries of the reachable attempts. -/
theorem Registers.visits_perm (h : Registers lists path s lines register) (howned : Owned s)
    (hlists : ∀ key, isTimeLevelKey key = true → ¬lists key) :
    s.visits.Perm ((register.filter (·.2.reachable)).map Prod.fst) := by
  have hnodup : ((register.filter (·.2.reachable)).map Prod.fst).Nodup :=
    h.nodup_numbers.sublist (List.filter_sublist.map Prod.fst)
  rw [List.perm_ext_iff_of_nodup howned.nodup_visits hnodup]
  intro number
  constructor
  · intro hvisited
    obtain ⟨entry, hentry, rfl, hreachable⟩ := h.reachable_of_visited howned hlists hvisited
    exact List.mem_map_of_mem (List.mem_filter.mpr ⟨hentry, hreachable⟩)
  · intro hmem
    obtain ⟨entry, hentry, rfl⟩ := List.mem_map.mp hmem
    obtain ⟨hreg, hreachable⟩ := List.mem_filter.mp hentry
    exact h.visited_of_reachable howned hreg hreachable

/-- Different attempts have different paths. -/
theorem Registers.nodup_paths (h : Registers lists path s lines register) (howned : Owned s)
    (haddressed : Addressed s path) : (register.map (·.2.path)).Nodup := by
  have hpaths : register.map (·.2.path) = (register.map Prod.fst).map path := by
    rw [List.map_map]
    exact List.map_congr_left fun entry hentry => (h.registered entry hentry).path_eq
  rw [hpaths]
  refine h.nodup_numbers.map_on ?_
  intro m hm n hn heq
  obtain ⟨entry, hentry, rfl⟩ := List.mem_map.mp hm
  obtain ⟨entry', hentry', rfl⟩ := List.mem_map.mp hn
  exact haddressed.injective howned (h.registered entry hentry).lt (h.registered entry' hentry').lt heq

/-! ## The points of the history -/

/-- The step of an attempt has a point with the level of the attempt. -/
theorem Registers.exists_point (h : Registers lists path s lines register) (howned : Owned s)
    {entry : Nat × Attempt} (hentry : entry ∈ register) :
    ∃ point, History.Query.point? { key := Step.levelKey } (s.dictOf entry.1) = some point ∧
      point.level = regionsOf (lines.take (entry.2.line - 1)) := by
  have hreg := h.registered entry hentry
  obtain ⟨point, hsome, hlevel⟩ := History.point?_of_head? (hreg.head?_dictOf howned)
  exact ⟨point, hsome, hlevel.trans hreg.isOf.level_eq⟩

/-- The points of a document are those of its reachable attempts. -/
theorem Registers.points_perm (h : Registers lists path s lines register) (howned : Owned s)
    (hlists : ∀ key, isTimeLevelKey key = true → ¬lists key) (query : History.Query) :
    (History.points query s.document.steps).Perm
      ((register.filter (·.2.reachable)).filterMap fun entry =>
        query.point? (s.dictOf entry.1)) := by
  have hvisited := (h.visits_perm howned hlists).filterMap fun number =>
    query.point? (s.dictOf number)
  rw [List.filterMap_map] at hvisited
  rw [howned.points_document]
  exact hvisited

end Builder

/-- The history of the time levels has one point for each reachable attempt: that of its step, with
the number of the regions of fast steps that are open at its line. -/
theorem History.points_reachable {options : Options} {lines : List String} {document : Document}
    (h : Document.ofLines options lines = .ok document)
    (hfast : ∀ record ∈ Record.readAll options.arrayIndicator lines, ∀ text,
      record.label ≠ "begin-time-level-" ++ text ++ "-list") :
    let reachable := (Document.attempts options lines).filter (·.reachable)
    let found := points { key := Step.levelKey } document.steps
    (reachable.map Attempt.path).Nodup ∧
      (found.map some).Perm (reachable.map fun attempt =>
        (document.at? attempt.path).bind (Query.point? { key := Step.levelKey })) ∧
      (found.map Point.level).Perm (reachable.map fun attempt =>
        regionsOf (lines.take (attempt.line - 1))) := by
  obtain ⟨s, path, register, hrun, rfl, haddressed, hregister, hattempts⟩ :=
    Builder.Registers.ofLines (fun key => isTimeLevelKey key = false) h
      fun record hrecord list hmarker => isTimeLevelKey_eq_false hmarker (hfast record hrecord)
  have howned := Builder.owned_of_runLines hrun
  intro reachable found
  have hreachable : reachable = (register.filter (·.2.reachable)).map Prod.snd := by
    show (Document.attempts options lines).filter _ = _
    rw [← hattempts, List.filter_map]
    rfl
  have hfound : found.Perm _ :=
    hregister.points_perm howned (fun key hkey hlists => by rw [hkey] at hlists; cases hlists) _
  refine ⟨?_, ?_, ?_⟩
  · rw [hreachable, List.map_map]
    exact (hregister.nodup_paths howned haddressed).sublist (List.filter_sublist.map _)
  · refine (hfound.map some).trans (.of_eq ?_)
    rw [hreachable, List.map_map, List.map_filterMap, ← List.filterMap_eq_map]
    apply List.filterMap_congr
    intro entry hentry
    have hmem := (List.mem_filter.mp hentry).1
    have hreg := hregister.registered entry hmem
    obtain ⟨point, hsome, -⟩ := hregister.exists_point howned hmem
    simp only [Function.comp_apply, hreg.path_eq, haddressed.at?_eq howned hreg.lt,
      Option.bind_some, hsome, Option.map_some]
  · refine (hfound.map Point.level).trans (.of_eq ?_)
    rw [hreachable, List.map_map, List.map_filterMap, ← List.filterMap_eq_map]
    apply List.filterMap_congr
    intro entry hentry
    obtain ⟨point, hsome, hlevel⟩ :=
      hregister.exists_point howned (List.mem_filter.mp hentry).1
    simp only [Function.comp_apply, hsome, Option.map_some, hlevel]

/-- The step in the section is not reachable, and has no point. -/
theorem History.points_reachable_nested :
    Document.ofLines {} nestedLog = .ok nestedDocument ∧
      (∀ record ∈ Record.readAll Payload.defaultIndicator nestedLog, ∀ text,
        record.label ≠ "begin-time-level-" ++ text ++ "-list") ∧
      ((points { key := Step.levelKey } nestedDocument.steps).map Point.level).Perm
        (((Document.attempts {} nestedLog).filter (·.reachable)).map fun attempt =>
          regionsOf (nestedLog.take (attempt.line - 1))) ∧
      ((Document.attempts {} nestedLog).filter (·.reachable)).map Attempt.line = [6, 9] :=
  ⟨nestedLog_read, nestedLog_ne_fastEntry,
    (points_reachable nestedLog_read nestedLog_ne_fastEntry).2.2, by decide +kernel⟩

end SolverLog
