import SolverLog.Proofs.Path
import SolverLog.Proofs.Preorder

/-!
# Visits of the history in a store

The history visits the dictionaries of a store by number (`State.visits`): each top-level step, and
after a dictionary those in its lists of fast steps.

* `Owned.points_document` — the history of a document, number by number.
* `Owned.filter_visits` — dictionaries that are added and left out again make no difference.
* `Owned.visits_insert` — a dictionary that is added to another one changes the visits from that one
  on, and no others.
-/

namespace SolverLog.Builder

open History (isTimeLevelKey)

/-- The elements of the list that a slot is; none for any other slot. -/
def Slot.elements : Slot → List Nat
  | list numbers => numbers
  | _ => []

/-- The steps within an entry of a dictionary. -/
def levelElements (entry : String × Slot) : List Nat :=
  if isTimeLevelKey entry.1 then entry.2.elements else []

/-- The steps right within a dictionary, in order. -/
def State.nested (s : State) (number : Nat) : List Nat :=
  (s.entries number).flatMap levelElements

/-- What the history visits from a dictionary on. -/
def State.walk (s : State) (number : Nat) : List Nat :=
  number :: (s.nested number).flatMap fun child =>
    if number < child ∧ child < s.dicts.size then s.walk child else []
termination_by s.dicts.size - number

/-- What the history visits. -/
def State.visits (s : State) : List Nat :=
  s.steps.toList.flatMap s.walk

variable {s s' : State}

theorem levelElements_sublist (entry : String × Slot) :
    (levelElements entry).Sublist entry.2.numbers := by
  unfold levelElements
  split
  · cases entry.2 with
    | value held => exact List.Sublist.refl _
    | dict number => exact List.nil_sublist _
    | list numbers => exact List.Sublist.refl _
  · exact List.nil_sublist _

theorem heldBy_of_mem_nested {child parent : Nat} (h : child ∈ s.nested parent) :
    HeldBy s child parent := by
  rcases List.mem_flatMap.mp h with ⟨entry, hentry, hchild⟩
  exact heldBy_iff.mpr ⟨entry, hentry, (levelElements_sublist entry).subset hchild⟩

theorem State.nested_of_size_le {number : Nat} (hnumber : s.dicts.size ≤ number) :
    s.nested number = [] := by
  unfold State.nested
  rw [State.entries_of_size_le hnumber]
  rfl

/-- The open sections and regions are no matter for what is visited. -/
theorem State.walk_congr (hdicts : s'.dicts = s.dicts) (number : Nat) :
    s'.walk number = s.walk number := by
  have hnested : ∀ number, s'.nested number = s.nested number := by
    intro number
    unfold State.nested State.entries
    rw [hdicts]
  induction hsize : s.dicts.size - number using Nat.strong_induction_on generalizing number with
  | _ size ih =>
      rw [State.walk, State.walk, hnested, hdicts]
      congr 1
      apply List.flatMap_congr
      intro child _
      split
      · next hlt => exact ih (s.dicts.size - child) (by omega) child rfl
      · rfl

theorem State.visits_congr (hdicts : s'.dicts = s.dicts) (hsteps : s'.steps = s.steps) :
    s'.visits = s.visits := by
  unfold State.visits
  rw [hsteps]
  apply List.flatMap_congr
  intro step _
  exact State.walk_congr hdicts step

namespace Owned

theorem nested_lt (h : Owned s) {child parent : Nat} (hchild : child ∈ s.nested parent) :
    parent < child ∧ child < s.dicts.size := by
  rcases heldBy_iff.mp (heldBy_of_mem_nested hchild) with ⟨entry, hentry, hmem⟩
  exact ⟨h.later parent entry hentry child hmem, h.child_lt hentry hmem⟩

theorem filter_nested (h : Owned s) (number : Nat) :
    (s.nested number).filter (fun child => decide (child < s.dicts.size)) = s.nested number := by
  apply List.filter_eq_self.mpr
  intro child hchild
  simpa using (h.nested_lt hchild).2

theorem nodup_nested (h : Owned s) (number : Nat) : (s.nested number).Nodup := by
  have hsub : ∀ entries : Entries Slot,
      (entries.flatMap levelElements).Sublist (numbersOf entries) := by
    intro entries
    induction entries with
    | nil => exact List.Sublist.refl _
    | cons entry rest ih => exact (levelElements_sublist entry).append ih
  exact (h.nodup_numbersOf number).sublist (hsub _)

theorem walk_eq (h : Owned s) (number : Nat) :
    s.walk number = number :: (s.nested number).flatMap s.walk := by
  rw [State.walk]
  congr 1
  apply List.flatMap_congr
  intro child hchild
  rw [if_pos (h.nested_lt hchild)]

/-! ## The history of the document -/

theorem nestedSteps_dictOf (h : Owned s) (number : Nat) :
    History.nestedSteps (s.dictOf number) = (s.nested number).map s.dictOf := by
  rw [h.dictOf_eq, History.nestedSteps, State.nested, List.flatMap_map, List.map_flatMap]
  congr 1
  funext entry
  unfold History.stepsWithin levelElements
  split
  · cases entry.2 <;> rfl
  · rfl

theorem preorder_dictOf (h : Owned s) (number : Nat) :
    History.preorder (s.dictOf number) = (s.walk number).map s.dictOf := by
  -- The induction goes from the last dictionary down.
  induction hsize : s.dicts.size - number using Nat.strong_induction_on generalizing number with
  | _ size ih =>
      rw [History.preorder_eq, h.walk_eq, h.nestedSteps_dictOf, List.map_cons, List.flatMap_map,
        List.map_flatMap]
      congr 1
      apply List.flatMap_congr
      intro child hchild
      have hlt := h.nested_lt hchild
      exact ih (s.dicts.size - child) (by omega) child rfl

/-- The history of a field over a document, number by number. -/
theorem points_document (h : Owned s) (query : History.Query) :
    History.points query s.document.steps =
      s.visits.filterMap fun number => query.point? (s.dictOf number) := by
  have hsteps : (s.steps.toList.map s.dictOf).flatMap History.preorder =
      s.visits.map s.dictOf := by
    rw [List.flatMap_map, State.visits, List.map_flatMap]
    apply List.flatMap_congr
    intro step _
    exact h.preorder_dictOf step
  rw [History.points_eq, State.document_eq h, hsteps, List.filterMap_map]
  rfl

/-! ## What is visited from where -/

theorem self_mem_walk (h : Owned s) (number : Nat) : number ∈ s.walk number := by
  rw [h.walk_eq]
  exact List.mem_cons_self

theorem within_of_mem_walk (h : Owned s) {number other : Nat} (hmem : other ∈ s.walk number) :
    Within s other number := by
  -- The induction goes from the last dictionary down, here and below.
  induction hsize : s.dicts.size - number using Nat.strong_induction_on generalizing number with
  | _ size ih =>
      rw [h.walk_eq] at hmem
      rcases List.mem_cons.mp hmem with rfl | hrest
      · exact .refl
      · rcases List.mem_flatMap.mp hrest with ⟨child, hchild, hother⟩
        have hlt := h.nested_lt hchild
        exact (ih (s.dicts.size - child) (by omega) hother rfl).tail (heldBy_of_mem_nested hchild)

theorem walk_le (h : Owned s) {number other : Nat} (hmem : other ∈ s.walk number) :
    number ≤ other :=
  h.within_le (h.within_of_mem_walk hmem)

/-- What is visited from a dictionary is visited from every one from which that is visited. -/
theorem walk_trans (h : Owned s) {a b c : Nat} (hab : b ∈ s.walk a) (hbc : c ∈ s.walk b) :
    c ∈ s.walk a := by
  induction hsize : s.dicts.size - a using Nat.strong_induction_on generalizing a with
  | _ size ih =>
      rw [h.walk_eq] at hab
      rcases List.mem_cons.mp hab with rfl | hrest
      · exact hbc
      · rcases List.mem_flatMap.mp hrest with ⟨child, hchild, hb⟩
        have hlt := h.nested_lt hchild
        rw [h.walk_eq]
        refine List.mem_cons_of_mem _ (List.mem_flatMap.mpr ⟨child, hchild, ?_⟩)
        exact ih (s.dicts.size - child) (by omega) hb rfl

theorem walk_lt (h : Owned s) {number other : Nat} (hnumber : number < s.dicts.size)
    (hmem : other ∈ s.walk number) : other < s.dicts.size := by
  rcases Relation.ReflTransGen.cases_head (h.within_of_mem_walk hmem) with heq | ⟨parent, hheld, -⟩
  · exact heq ▸ hnumber
  · rcases heldBy_iff.mp hheld with ⟨entry, hentry, hchild⟩
    exact h.child_lt hentry hchild

theorem visits_lt (h : Owned s) {number : Nat} (hmem : number ∈ s.visits) :
    number < s.dicts.size := by
  rcases List.mem_flatMap.mp hmem with ⟨step, hstep, hnumber⟩
  exact h.walk_lt (h.step_lt hstep) hnumber

theorem mem_visits_of_walk (h : Owned s) {number other : Nat} (hnumber : number ∈ s.visits)
    (hmem : other ∈ s.walk number) : other ∈ s.visits := by
  rcases List.mem_flatMap.mp hnumber with ⟨step, hstep, hwalk⟩
  exact List.mem_flatMap.mpr ⟨step, hstep, h.walk_trans hwalk hmem⟩

theorem mem_visits_of_nested (h : Owned s) {parent child : Nat} (hparent : parent ∈ s.visits)
    (hchild : child ∈ s.nested parent) : child ∈ s.visits := by
  apply h.mem_visits_of_walk hparent
  rw [h.walk_eq]
  exact List.mem_cons_of_mem _ (List.mem_flatMap.mpr ⟨child, hchild, h.self_mem_walk child⟩)

/-- What is visited is where the visits start, or right within something that is visited. -/
theorem walk_parent (h : Owned s) {number other : Nat} (hmem : other ∈ s.walk number) :
    other = number ∨ ∃ parent ∈ s.walk number, other ∈ s.nested parent := by
  induction hsize : s.dicts.size - number using Nat.strong_induction_on generalizing number with
  | _ size ih =>
      rw [h.walk_eq] at hmem
      rcases List.mem_cons.mp hmem with heq | hrest
      · exact Or.inl heq
      · rcases List.mem_flatMap.mp hrest with ⟨child, hchild, hother⟩
        have hlt := h.nested_lt hchild
        rcases ih (s.dicts.size - child) (by omega) hother rfl with rfl | ⟨parent, hparent, hnested⟩
        · exact Or.inr ⟨number, h.self_mem_walk number, hchild⟩
        · refine Or.inr ⟨parent, ?_, hnested⟩
          rw [h.walk_eq]
          exact List.mem_cons_of_mem _ (List.mem_flatMap.mpr ⟨child, hchild, hparent⟩)

theorem visits_parent (h : Owned s) {number : Nat} (hmem : number ∈ s.visits) :
    number ∈ s.steps.toList ∨ ∃ parent ∈ s.visits, number ∈ s.nested parent := by
  rcases List.mem_flatMap.mp hmem with ⟨step, hstep, hwalk⟩
  rcases h.walk_parent hwalk with rfl | ⟨parent, hparent, hnested⟩
  · exact Or.inl hstep
  · exact Or.inr ⟨parent, List.mem_flatMap.mpr ⟨step, hstep, hparent⟩, hnested⟩

/-- A dictionary at a key is not visited. -/
theorem not_mem_visits_of_dict (h : Owned s) {parent child : Nat} {key : String}
    (hheld : (key, Slot.dict child) ∈ s.entries parent) : child ∉ s.visits := by
  have hchild : child ∈ numbersOf (s.entries parent) :=
    heldBy_iff.mpr ⟨_, hheld, List.mem_singleton_self child⟩
  intro hvisited
  rcases h.visits_parent hvisited with hstep | ⟨holder, -, hnested⟩
  · exact h.not_mem_numbersOf_of_mem_steps hstep parent hchild
  · have hholder : holder = parent := h.holder_unique (heldBy_of_mem_nested hnested) hchild
    subst hholder
    rcases List.mem_flatMap.mp hnested with ⟨entry, hentry, hmem⟩
    -- The holder has it in one entry only, and that is no list.
    have heq := h.entry_unique hentry hheld ((levelElements_sublist entry).subset hmem)
      (List.mem_singleton_self child)
    rw [heq] at hmem
    simp [levelElements, Slot.elements] at hmem

theorem globals_not_mem_visits (h : Owned s) : globalsNumber ∉ s.visits := by
  intro hvisited
  rcases h.visits_parent hvisited with hstep | ⟨parent, -, hchild⟩
  · exact h.globals_not_mem_steps hstep
  · exact h.globals_not_mem_numbersOf parent (heldBy_of_mem_nested hchild)

/-! ## A dictionary that is left out again -/

/-- Dictionaries that are added within visited ones, hold no steps and are left out again make no
difference to what is visited. -/
theorem filter_walk (h : Owned s) (h' : Owned s') {keep : Nat → Bool}
    (hnested : ∀ number ∈ s.visits, (s'.nested number).filter keep = s.nested number)
    (hkeep : ∀ number ∈ s.visits, keep number = true)
    (hdrop : ∀ number, keep number = false → s'.nested number = [])
    {number : Nat} (hvisited : number ∈ s.visits) :
    (s'.walk number).filter keep = s.walk number := by
  induction hsize : s.dicts.size - number using Nat.strong_induction_on generalizing number with
  | _ size ih =>
      -- What is left out has nothing within it that could stay.
      have hempty : ∀ child, keep child = false → (s'.walk child).filter keep = [] := by
        intro child hchild
        rw [h'.walk_eq, hdrop child hchild]
        simp [hchild]
      have hleft : ∀ children : List Nat, children.flatMap (fun child => (s'.walk child).filter keep) =
          (children.filter keep).flatMap fun child => (s'.walk child).filter keep := by
        intro children
        induction children with
        | nil => rfl
        | cons child rest ih =>
            cases hchild : keep child with
            | true => simp [hchild, ih]
            | false => simp [hchild, ih, hempty child hchild]
      rw [h'.walk_eq, h.walk_eq, List.filter_cons_of_pos (hkeep number hvisited),
        List.filter_flatMap, hleft, hnested number hvisited]
      congr 1
      apply List.flatMap_congr
      intro child hchild
      have hlt := h.nested_lt hchild
      exact ih (s.dicts.size - child) (by omega) (h.mem_visits_of_nested hvisited hchild) rfl

theorem filter_visits (h : Owned s) (h' : Owned s') {keep : Nat → Bool}
    (hnested : ∀ number ∈ s.visits, (s'.nested number).filter keep = s.nested number)
    (hkeep : ∀ number ∈ s.visits, keep number = true)
    (hdrop : ∀ number, keep number = false → s'.nested number = []) (hsteps : s'.steps = s.steps) :
    s'.visits.filter keep = s.visits := by
  unfold State.visits
  rw [hsteps, List.filter_flatMap]
  apply List.flatMap_congr
  intro step hstep
  apply h.filter_walk h' hnested hkeep hdrop
  exact List.mem_flatMap.mpr ⟨step, hstep, h.self_mem_walk step⟩

/-! ## A dictionary that holds one more -/

/-- From where a dictionary is not visited, nothing is visited otherwise if that one changes. -/
theorem walk_same (h : Owned s) (h' : Owned s') {host : Nat}
    (hnested : ∀ number < s.dicts.size, number ≠ host → s'.nested number = s.nested number)
    {number : Nat} (hnumber : number < s.dicts.size) (hhost : host ∉ s.walk number) :
    s'.walk number = s.walk number := by
  induction hsize : s.dicts.size - number using Nat.strong_induction_on generalizing number with
  | _ size ih =>
      have hne : number ≠ host := by
        rintro rfl
        exact hhost (h.self_mem_walk number)
      rw [h'.walk_eq, h.walk_eq, hnested number hnumber hne]
      congr 1
      apply List.flatMap_congr
      intro child hchild
      have hlt := h.nested_lt hchild
      apply ih (s.dicts.size - child) (by omega) hlt.2 _ rfl
      intro hmem
      apply hhost
      rw [h.walk_eq]
      exact List.mem_cons_of_mem _ (List.mem_flatMap.mpr ⟨child, hchild, hmem⟩)

/-- The visits of a list of dictionaries, if those from one of them change in one part. -/
theorem flatMap_insert {items : List Nat} (hnodup : items.Nodup) {item : Nat} (hitem : item ∈ items)
    {f f' : Nat → List Nat} (hrest : ∀ other ∈ items, other ≠ item → f' other = f other)
    {old new : List Nat}
    (hsplit : ∃ before after, f item = before ++ old ++ after ∧ f' item = before ++ new ++ after) :
    ∃ before after, items.flatMap f = before ++ old ++ after ∧
      items.flatMap f' = before ++ new ++ after := by
  rcases List.append_of_mem hitem with ⟨first, last, rfl⟩
  -- The item is in the list once, so what comes before and after it stays.
  rcases hsplit with ⟨before, after, hold, hnew⟩
  rcases List.nodup_append.mp hnodup with ⟨-, hlast, hdistinct⟩
  have hfirst : first.flatMap f' = first.flatMap f := by
    apply List.flatMap_congr
    intro other hother
    apply hrest other (List.mem_append_left _ hother)
    rintro rfl
    exact hdistinct other hother other List.mem_cons_self rfl
  have hend : last.flatMap f' = last.flatMap f := by
    apply List.flatMap_congr
    intro other hother
    apply hrest other (List.mem_append_right _ (List.mem_cons_of_mem _ hother))
    rintro rfl
    exact (List.nodup_cons.mp hlast).1 hother
  refine ⟨first.flatMap f ++ before, after ++ last.flatMap f, ?_, ?_⟩
  · simp [List.flatMap_append, List.flatMap_cons, hold]
  · simp [List.flatMap_append, List.flatMap_cons, hnew, hfirst, hend]

/-- A dictionary that changes, changes the visits from that one on. -/
theorem walk_insert (h : Owned s) (h' : Owned s') {host : Nat}
    (hnested : ∀ number < s.dicts.size, number ≠ host → s'.nested number = s.nested number)
    {number : Nat} (hnumber : number < s.dicts.size) (hhost : host ∈ s.walk number) :
    ∃ before after, s.walk number = before ++ s.walk host ++ after ∧
      s'.walk number = before ++ s'.walk host ++ after := by
  induction hsize : s.dicts.size - number using Nat.strong_induction_on generalizing number with
  | _ size ih =>
      by_cases heq : number = host
      · subst heq
        exact ⟨[], [], by simp, by simp⟩
      · rw [h.walk_eq] at hhost
        rcases List.mem_cons.mp hhost with hself | hrest
        · exact absurd hself.symm heq
        · rcases List.mem_flatMap.mp hrest with ⟨child, hchild, hmem⟩
          have hlt := h.nested_lt hchild
          -- Only one of the steps within a dictionary can have the host within it.
          have hother : ∀ other ∈ s.nested number, other ≠ child → s'.walk other = s.walk other := by
            intro other hother hne
            apply h.walk_same h' hnested (h.nested_lt hother).2
            intro hmem'
            exact hne (h.eq_of_within (heldBy_of_mem_nested hother) (heldBy_of_mem_nested hchild)
              (h.within_of_mem_walk hmem') (h.within_of_mem_walk hmem))
          obtain ⟨before, after, hold, hnew⟩ := flatMap_insert (h.nodup_nested number) hchild hother
            (ih (s.dicts.size - child) (by omega) hlt.2 hmem rfl)
          refine ⟨number :: before, after, ?_, ?_⟩
          · rw [h.walk_eq, hold]
            rfl
          · rw [h'.walk_eq, hnested number hnumber heq, hnew]
            rfl

theorem visits_insert (h : Owned s) (h' : Owned s') {host : Nat} (hhost : host ∈ s.visits)
    (hnested : ∀ number < s.dicts.size, number ≠ host → s'.nested number = s.nested number)
    (hsteps : s'.steps = s.steps) :
    ∃ before after, s.visits = before ++ s.walk host ++ after ∧
      s'.visits = before ++ s'.walk host ++ after := by
  rcases List.mem_flatMap.mp hhost with ⟨step, hstep, hmem⟩
  -- Nor can two top-level steps have the host within them.
  have hother : ∀ other ∈ s.steps.toList, other ≠ step → s'.walk other = s.walk other := by
    intro other hother hne
    apply h.walk_same h' hnested (h.step_lt hother)
    intro hmem'
    exact hne (h.eq_of_within_unheld (h.not_mem_numbersOf_of_mem_steps hother)
      (h.not_mem_numbersOf_of_mem_steps hstep) (h.within_of_mem_walk hmem')
      (h.within_of_mem_walk hmem))
  unfold State.visits
  rw [hsteps]
  exact flatMap_insert h.nodup_steps hstep hother (h.walk_insert h' hnested (h.step_lt hstep) hmem)

end Owned

end SolverLog.Builder
