import SolverLog.Proofs.Arrivals

/-!
# The new dictionary of a section

`Adds` says where the dictionary of a section that is opened stands, once the fields of the record
are set too. What that adds to the visits depends on the place.

* `Adds.keeps` — nothing, outside of the lists of fast steps of visited steps.
* `Adds.quiet` — nothing that is stamped, if the section is an element of such a list.
* `Adds.grows` — a step, if it begins in such a list.
* `Adds.begins` — a step, if it begins at the top level.
-/

namespace SolverLog.Builder

variable {key : String} {s t : State}

/-- The new dictionary of a section is at its place, and fields may be set. -/
structure Adds (key : String) (opened : Section) (s t : State) : Prop where
  free : s.vacancy (s.place opened) = .free
  size_eq : t.dicts.size = s.dicts.size + 1
  steps_eq : t.steps = (s.addAt (s.newEntries opened) (s.place opened)).steps
  nested : ∀ number,
    t.nested number = (s.addAt (s.newEntries opened) (s.place opened)).nested number
  lists : ∀ number, ∀ stamped : Nat → Bool, levelLists stamped (t.entries number) =
    levelLists stamped ((s.addAt (s.newEntries opened) (s.place opened)).entries number)
  stamped : ∀ number < s.dicts.size, t.stamped key number = s.stamped key number

theorem adds_of_enterNew {line : Nat} {opened : Section} {fields : Payload} (h : Owned s)
    (hfree : s.vacancy (s.place opened) = .free)
    (hsets : run line (Move.sets fields)
      ((s.addAt (s.newEntries opened) (s.place opened)).enter line opened s.dicts.size) = .reached t)
    (hstamp : ∀ number < s.dicts.size, t.stamp key number = s.stamp key number) :
    Adds key opened s t := by
  have henter : Transition line s (.enter opened) _ := .enterNew hfree
  have hentered := h.step henter
  refine ⟨hfree, ?_, (unchanged_of_run_sets hsets).2.1, ?_, ?_, ?_⟩
  · rw [(entries_sets hentered hsets).1]
    exact State.size_addAt ..
  · intro number
    exact nested_sets hentered hsets number
  · intro number stamped
    exact levelLists_sets hentered hsets stamped number
  · intro number hnumber
    unfold State.stamped
    rw [hstamp number hnumber]

namespace Adds

variable {opened : Section}

theorem leaf (ha : Adds key opened s t) (h : Owned s) {number : Nat}
    (hnumber : s.dicts.size ≤ number) : t.nested number = [] := by
  rw [ha.nested]
  rcases Nat.eq_or_lt_of_le hnumber with rfl | hlt
  · exact nested_addAt_size _ (fun parent hparent => h.parent_lt hparent)
      Owned.numbers_newEntries
  · apply State.nested_of_size_le
    rw [State.size_addAt]
    omega

/-- Only in the dictionary that holds the new one can there be anything else. -/
theorem same (ha : Adds key opened s t) (h : Owned s) {number : Nat}
    (hnumber : number < s.dicts.size)
    (hother : ∀ parent list, s.place opened = .element parent list → parent = number →
      History.isTimeLevelKey list = false) :
    t.nested number = s.nested number ∧ ∀ stamped : Nat → Bool,
      levelLists stamped (t.entries number) = levelLists stamped (s.entries number) := by
  have hparent : ∀ parent, (s.place opened).parent? = some parent → parent < s.dicts.size :=
    fun parent hparent => h.parent_lt hparent
  rw [ha.nested]
  by_cases hplace : (s.place opened).parent? = some number
  · -- The parent has the new one elsewhere than in a list of fast steps.
    have hkey : ∀ parent list, s.place opened = .element parent list →
        History.isTimeLevelKey list = false := by
      intro parent list heq
      rw [heq] at hplace
      exact hother parent list heq (Option.some.inj hplace)
    rcases levels_addAt_of_other hparent ha.free hkey hnumber with ⟨hnested, hlists⟩
    exact ⟨hnested, fun stamped => (ha.lists number stamped).trans (hlists stamped)⟩
  · have hentries := (entries_addAt (s.newEntries opened) hparent).2 number (by omega) hplace
    constructor
    · unfold State.nested
      rw [hentries]
    · intro stamped
      rw [ha.lists, hentries]

theorem same_of_ne (ha : Adds key opened s t) (h : Owned s) {host number : Nat} {list : String}
    (hplace : s.place opened = .element host list) (hnumber : number < s.dicts.size)
    (hne : number ≠ host) : t.nested number = s.nested number ∧ ∀ stamped : Nat → Bool,
      levelLists stamped (t.entries number) = levelLists stamped (s.entries number) := by
  apply ha.same h hnumber
  intro parent other hother hparent
  rw [hplace] at hother
  cases hother
  exact absurd hparent.symm hne

/-- No list of fast steps is in a new dictionary. -/
theorem lists_new (ha : Adds key opened s t) (h : Owned s) (stamped : Nat → Bool) :
    levelLists stamped (t.entries s.dicts.size) = [] := by
  rw [ha.lists, (entries_addAt _ fun parent hparent => h.parent_lt hparent).1]
  cases opened <;> rfl

theorem keeps (ha : Adds key opened s t) (h : Owned s) (hplace : s.place opened ≠ .topLevel)
    (hother : ∀ parent list, s.place opened = .element parent list → parent ∈ s.visits →
      History.isTimeLevelKey list = false) : Keeps key s t := by
  have hsame : ∀ number ∈ s.visits, t.nested number = s.nested number ∧ ∀ stamped : Nat → Bool,
      levelLists stamped (t.entries number) = levelLists stamped (s.entries number) := by
    intro number hnumber
    apply ha.same h (h.visits_lt hnumber)
    rintro parent list heq rfl
    exact hother parent list heq hnumber
  refine ⟨?_, fun number hnumber => (hsame number hnumber).1, fun number => ha.leaf h,
    fun number hnumber => (hsame number hnumber).2, ha.stamped⟩
  rw [ha.steps_eq]
  cases hcase : s.place opened with
  | topLevel => exact absurd hcase hplace
  | member parent name => rfl
  | element parent list => rfl

theorem keeps_of_element (ha : Adds key opened s t) (h : Owned s) {host : Nat} {list : String}
    (hplace : s.place opened = .element host list)
    (hother : host ∈ s.visits → History.isTimeLevelKey list = false) : Keeps key s t := by
  apply ha.keeps h
  · simp [hplace]
  · intro parent other heq hparent
    rw [hplace] at heq
    cases heq
    exact hother hparent

theorem begins (ha : Adds key opened s t) (h : Owned s) (hplace : s.place opened = .topLevel)
    (hnew : t.stamped key s.dicts.size = true) : Begins key s t where
  steps_eq := by
    rw [ha.steps_eq, hplace]
    exact Array.toList_push
  nested := by
    intro number hnumber
    apply (ha.same h hnumber _).1
    intro parent list heq
    rw [hplace] at heq
    cases heq
  leaf := ha.leaf h (Nat.le_refl _)
  stamped := ha.stamped
  stamped_new := hnew

/-- The dictionary whose list of fast steps gets the new one. -/
theorem element (ha : Adds key opened s t) (h : Owned s) {host : Nat} {list : String}
    (hplace : s.place opened = .element host list) (hkey : History.isTimeLevelKey list = true) :
    (∃ before after, s.nested host = before ++ after ∧
      t.nested host = before ++ s.dicts.size :: after ∧
      (isLastList (levelLists (s.stamped key) (s.entries host)) list = true ↔
        ∀ other ∈ after, s.stamped key other = false)) ∧
    levelLists (t.stamped key) (t.entries host) =
      Entries.put (levelLists (s.stamped key) (s.entries host)) list
        ((Entries.value? (levelLists (s.stamped key) (s.entries host)) list).getD false ||
          t.stamped key s.dicts.size) := by
  have hhost : host < s.dicts.size := h.parent_lt (by rw [hplace]; rfl)
  have hfree : s.vacancy (.element host list) = .free := hplace ▸ ha.free
  have hnested := ha.nested host
  have hlists := ha.lists host (t.stamped key)
  rw [hplace] at hnested hlists
  have hsame : levelLists (t.stamped key) (s.entries host) =
      levelLists (s.stamped key) (s.entries host) := by
    apply levelLists_congr
    intro child hchild
    exact ha.stamped child (h.nested_lt hchild).2
  constructor
  · rw [hnested]
    exact (levels_addAt_element hhost hfree hkey (s.stamped key)).1
  · rw [hlists, (levels_addAt_element hhost hfree hkey (t.stamped key)).2, hsame]

/-- A list entry that is no step is added to a list of fast steps. -/
theorem quiet (ha : Adds key opened s t) (h : Owned s) (h' : Owned t) {host : Nat} {list : String}
    (hplace : s.place opened = .element host list) (hkey : History.isTimeLevelKey list = true)
    (hnew : t.stamped key s.dicts.size = false) : Quiet key s t where
  steps_eq := by
    rw [ha.steps_eq, hplace]
    rfl
  nested := by
    intro number hnumber
    have hlt := h.visits_lt hnumber
    have hkeep := h.filter_nested number
    -- Wherever the new element stands in the list, it is left out again.
    by_cases heq : number = host
    · subst heq
      rcases (ha.element h hplace hkey).1 with ⟨before, after, hold, hgrown, -⟩
      rw [hold, List.filter_append] at hkeep
      rw [hgrown, hold, List.filter_append, List.filter_cons_of_neg (by simp)]
      exact hkeep
    · rw [(ha.same_of_ne h hplace hlt heq).1]
      exact hkeep
  leaf := fun number => ha.leaf h
  stamped := ha.stamped
  unstamped := by
    intro number _ child hchild hle
    have hlt := (h'.nested_lt hchild).2
    rw [ha.size_eq] at hlt
    have heq : child = s.dicts.size := by omega
    rw [heq]
    exact hnew

/-- Only within what is visited is the new dictionary visited. -/
theorem holder_visited (ha : Adds key opened s t) (h : Owned s) (h' : Owned t)
    (hq : Quiet key s t) {host : Nat} {list : String} (hplace : s.place opened = .element host list)
    (hvisited : s.dicts.size ∈ t.visits) : host ∈ s.visits := by
  rcases h'.visits_parent hvisited with hstep | ⟨parent, hparent, hchild⟩
  · rw [hq.steps_eq] at hstep
    exact absurd (h.step_lt hstep) (Nat.lt_irrefl _)
  · have hlt := (h'.nested_lt hchild).1
    have hparent' := (hq.mem_visits h h' hlt).mp hparent
    -- No other dictionary has anything new in its lists.
    by_cases heq : parent = host
    · exact heq ▸ hparent'
    · rw [(ha.same_of_ne h hplace hlt heq).1] at hchild
      exact absurd (h.nested_lt hchild).2 (Nat.lt_irrefl _)

/-- A step is added to a list of fast steps of a visited one. -/
theorem grows (ha : Adds key opened s t) (h : Owned s) {host : Nat} {list : String}
    (hplace : s.place opened = .element host list) (hkey : History.isTimeLevelKey list = true)
    (hvisited : host ∈ s.visits) (hnew : t.stamped key s.dicts.size = true) :
    ∃ before after, Grows key s t host before after ∧
      (isLastList (levelLists (s.stamped key) (s.entries host)) list = true ↔
        ∀ other ∈ after, s.stamped key other = false) := by
  rcases (ha.element h hplace hkey).1 with ⟨before, after, hold, hgrown, hlast⟩
  refine ⟨before, after, ⟨?_, hvisited, hold, hgrown, ?_, ?_, ha.stamped, hnew⟩, hlast⟩
  · rw [ha.steps_eq, hplace]
    rfl
  · intro number hnumber hne
    exact (ha.same_of_ne h hplace hnumber hne).1
  · exact ha.leaf h (Nat.le_refl _)

end Adds

end SolverLog.Builder
