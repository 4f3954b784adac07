import SolverLog.Proofs.Stamps

/-!
# What is added to the visits

The history visits the steps of a log in order of their numbers as long as each new one comes after
all others, and only those that a fast step adds to a list can come earlier.

* `Ordered` — what is known of the stamped dictionaries that are visited.
* `Quiet`, `Keeps` — a change that adds nothing that is stamped and visited, or nothing visited.
* `Grows`, `Ordered.pairwise_grow` — a step is added to a list of fast steps.
* `Begins` — a step is added to the top-level steps.
-/

namespace SolverLog.Builder

variable {key : String} {s t : State}

/-- The stamped dictionaries that the history visits. -/
def State.stampedVisits (s : State) (key : String) : List Nat :=
  s.visits.filter (s.stamped key)

/-- What is known of the stamped dictionaries that are visited, and of sections that are open. -/
structure Ordered (key : String) (s : State) (frames : List Frame) : Prop where
  /-- A dictionary without a stamp has none visited within it. -/
  plain : ∀ number ∈ s.visits, s.stamped key number = false →
    ∀ other ∈ s.walk number, s.stamped key other = false
  /-- Whatever began after an open step is visited within it. -/
  newest : ∀ frame ∈ frames, frame.opened = .step → frame.dict ∈ s.visits →
    ∀ other ∈ s.visits, s.stamped key other = true → frame.dict < other → other ∈ s.walk frame.dict
  /-- The dictionary of a section is newer than those of the sections around it. -/
  later : frames.Pairwise fun inner outer => outer.dict < inner.dict
  stamped : ∀ frame ∈ frames, frame.opened = .step → s.stamped key frame.dict = true
  /-- What is open and visited is within an open step. -/
  within : ∀ frame ∈ frames, frame.dict ∈ s.visits →
    ∃ outer ∈ frames, outer.opened = .step ∧ outer.dict ≤ frame.dict

/-! ## Changes that add nothing stamped -/

/-- The store changes, but no stamped dictionary is added to what is visited. -/
structure Quiet (key : String) (s t : State) : Prop where
  steps_eq : t.steps = s.steps
  nested : ∀ number ∈ s.visits,
    (t.nested number).filter (fun child => decide (child < s.dicts.size)) = s.nested number
  leaf : ∀ number, s.dicts.size ≤ number → t.nested number = []
  stamped : ∀ number < s.dicts.size, t.stamped key number = s.stamped key number
  unstamped : ∀ number ∈ s.visits, ∀ child ∈ t.nested number, s.dicts.size ≤ child →
    t.stamped key child = false

namespace Quiet

theorem walk (hq : Quiet key s t) (h : Owned s) (h' : Owned t) {number : Nat}
    (hvisited : number ∈ s.visits) :
    (t.walk number).filter (fun child => decide (child < s.dicts.size)) = s.walk number := by
  apply h.filter_walk h' hq.nested _ _ hvisited
  · intro other hother
    simpa using h.visits_lt hother
  · intro other hother
    exact hq.leaf other (by simpa using hother)

theorem visits (hq : Quiet key s t) (h : Owned s) (h' : Owned t) :
    t.visits.filter (fun child => decide (child < s.dicts.size)) = s.visits := by
  apply h.filter_visits h' hq.nested _ _ hq.steps_eq
  · intro other hother
    simpa using h.visits_lt hother
  · intro other hother
    exact hq.leaf other (by simpa using hother)

theorem mem_visits (hq : Quiet key s t) (h : Owned s) (h' : Owned t) {number : Nat}
    (hnumber : number < s.dicts.size) : number ∈ t.visits ↔ number ∈ s.visits := by
  rw [← hq.visits h h', List.mem_filter]
  simp [hnumber]

theorem mem_walk (hq : Quiet key s t) (h : Owned s) (h' : Owned t) {number other : Nat}
    (hvisited : number ∈ s.visits) (hother : other < s.dicts.size) :
    other ∈ t.walk number ↔ other ∈ s.walk number := by
  rw [← hq.walk h h' hvisited, List.mem_filter]
  simp [hother]

/-- What is visited and new is not stamped. -/
theorem new_unstamped (hq : Quiet key s t) (h : Owned s) (h' : Owned t) {number : Nat}
    (hvisited : number ∈ t.visits) (hnumber : s.dicts.size ≤ number) :
    t.stamped key number = false := by
  rcases h'.visits_parent hvisited with hstep | ⟨parent, hparent, hchild⟩
  · rw [hq.steps_eq] at hstep
    have hlt := h.step_lt hstep
    omega
  · by_cases hlt : parent < s.dicts.size
    · exact hq.unstamped parent ((hq.mem_visits h h' hlt).mp hparent) number hchild hnumber
    · rw [hq.leaf parent (Nat.le_of_not_lt hlt)] at hchild
      simp at hchild

theorem lt_of_stamped (hq : Quiet key s t) (h : Owned s) (h' : Owned t) {number : Nat}
    (hvisited : number ∈ t.visits) (hstamped : t.stamped key number = true) :
    number < s.dicts.size := by
  by_contra hge
  have hplain := hq.new_unstamped h h' hvisited (Nat.le_of_not_lt hge)
  rw [hplain] at hstamped
  cases hstamped

theorem stampedVisits (hq : Quiet key s t) (h : Owned s) (h' : Owned t) :
    t.stampedVisits key = s.stampedVisits key := by
  unfold State.stampedVisits
  have hsame : s.visits.filter (s.stamped key) = s.visits.filter (t.stamped key) := by
    apply List.filter_congr
    intro number hnumber
    exact (hq.stamped number (h.visits_lt hnumber)).symm
  rw [hsame, ← hq.visits h h', List.filter_filter]
  apply List.filter_congr
  intro number hnumber
  cases hstamped : t.stamped key number with
  | false => rfl
  | true => simp [hq.lt_of_stamped h h' hnumber hstamped]

end Quiet

/-- The store changes, but nothing is added to what is visited. -/
structure Keeps (key : String) (s t : State) : Prop where
  steps_eq : t.steps = s.steps
  nested : ∀ number ∈ s.visits, t.nested number = s.nested number
  leaf : ∀ number, s.dicts.size ≤ number → t.nested number = []
  lists : ∀ number ∈ s.visits, ∀ stamped : Nat → Bool,
    levelLists stamped (t.entries number) = levelLists stamped (s.entries number)
  stamped : ∀ number < s.dicts.size, t.stamped key number = s.stamped key number

namespace Keeps

theorem quiet (hk : Keeps key s t) (h : Owned s) : Quiet key s t where
  steps_eq := hk.steps_eq
  nested := by
    intro number hnumber
    rw [hk.nested number hnumber]
    exact h.filter_nested number
  leaf := hk.leaf
  stamped := hk.stamped
  unstamped := by
    intro number hnumber child hchild hnew
    rw [hk.nested number hnumber] at hchild
    have hlt := (h.nested_lt hchild).2
    omega

/-- A new dictionary is not visited. -/
theorem not_mem_visits (hk : Keeps key s t) (h : Owned s) (h' : Owned t) {number : Nat}
    (hnumber : s.dicts.size ≤ number) : number ∉ t.visits := by
  intro hvisited
  have hq := hk.quiet h
  rcases h'.visits_parent hvisited with hstep | ⟨parent, hparent, hchild⟩
  · rw [hk.steps_eq] at hstep
    have hlt := h.step_lt hstep
    omega
  · by_cases hlt : parent < s.dicts.size
    · have hparent' := (hq.mem_visits h h' hlt).mp hparent
      rw [hk.nested parent hparent'] at hchild
      have hchildLt := (h.nested_lt hchild).2
      omega
    · rw [hk.leaf parent (Nat.le_of_not_lt hlt)] at hchild
      simp at hchild

end Keeps

theorem Ordered.quiet (ho : Ordered key s s.frames) (h : Owned s) (h' : Owned t)
    (hq : Quiet key s t) : Ordered key t s.frames := by
  refine ⟨?_, ?_, ho.later, ?_, ?_⟩
  · intro number hvisited hplain other hother
    cases hstamped : t.stamped key other with
    | false => rfl
    | true =>
        -- What is stamped and visited was there before.
        have hlt := hq.lt_of_stamped h h' (h'.mem_visits_of_walk hvisited hother) hstamped
        have hnumber : number < s.dicts.size := Nat.lt_of_le_of_lt (h'.walk_le hother) hlt
        have hvisited' := (hq.mem_visits h h' hnumber).mp hvisited
        have hother' := (hq.mem_walk h h' hvisited' hlt).mp hother
        have hunstamped := ho.plain number hvisited' ((hq.stamped number hnumber).symm.trans hplain)
          other hother'
        rw [hq.stamped other hlt, hunstamped] at hstamped
        cases hstamped
  · intro frame hmem hopened hvisited other hother hstamped hlater
    have hlt := hq.lt_of_stamped h h' hother hstamped
    have hvisited' := (hq.mem_visits h h' (h.opened_lt frame hmem)).mp hvisited
    rw [hq.mem_walk h h' hvisited' hlt]
    rw [hq.stamped other hlt] at hstamped
    exact ho.newest frame hmem hopened hvisited' other ((hq.mem_visits h h' hlt).mp hother) hstamped
      hlater
  · intro frame hmem hopened
    rw [hq.stamped frame.dict (h.opened_lt frame hmem)]
    exact ho.stamped frame hmem hopened
  · intro frame hmem hvisited
    exact ho.within frame hmem ((hq.mem_visits h h' (h.opened_lt frame hmem)).mp hvisited)

/-! ## A step that is added to a list of fast steps -/

/-- A stamped dictionary is added to the lists of one that is visited, between what was nested
there. -/
structure Grows (key : String) (s t : State) (host : Nat) (before after : List Nat) : Prop where
  steps_eq : t.steps = s.steps
  visited : host ∈ s.visits
  nested_host : s.nested host = before ++ after
  grown_host : t.nested host = before ++ s.dicts.size :: after
  nested : ∀ number < s.dicts.size, number ≠ host → t.nested number = s.nested number
  leaf : t.nested s.dicts.size = []
  stamped : ∀ number < s.dicts.size, t.stamped key number = s.stamped key number
  stamped_new : t.stamped key s.dicts.size = true

namespace Grows

variable {host : Nat} {before after : List Nat}

theorem walk_host (hg : Grows key s t host before after) (h : Owned s) (h' : Owned t) :
    s.walk host = host :: before.flatMap s.walk ++ after.flatMap s.walk ∧
      t.walk host =
        host :: before.flatMap s.walk ++ s.dicts.size :: after.flatMap s.walk := by
  -- What the host holds does not have the host within it, so it is visited as before.
  have hsame : ∀ children : List Nat, (∀ child ∈ children, child ∈ s.nested host) →
      children.flatMap t.walk = children.flatMap s.walk := by
    intro children hchildren
    apply List.flatMap_congr
    intro child hchild
    have hlt := h.nested_lt (hchildren child hchild)
    apply h.walk_same h' hg.nested hlt.2
    intro hmem
    have hle := h.walk_le hmem
    omega
  have hbefore := hsame before fun child hchild =>
    hg.nested_host ▸ List.mem_append_left after hchild
  have hafter := hsame after fun child hchild =>
    hg.nested_host ▸ List.mem_append_right before hchild
  have hnew : t.walk s.dicts.size = [s.dicts.size] := by
    rw [h'.walk_eq, hg.leaf]
    rfl
  constructor
  · rw [h.walk_eq, hg.nested_host, List.flatMap_append]
    rfl
  · rw [h'.walk_eq, hg.grown_host, List.flatMap_append, List.flatMap_cons, hnew, hbefore, hafter]
    rfl

/-- From where the host is visited, the new dictionary is too. -/
theorem walk (hg : Grows key s t host before after) (h : Owned s) (h' : Owned t) {number : Nat}
    (hnumber : number < s.dicts.size) :
    (host ∉ s.walk number → t.walk number = s.walk number) ∧
      (host ∈ s.walk number →
        s.dicts.size ∈ t.walk number ∧ ∀ other ∈ s.walk number, other ∈ t.walk number) := by
  refine ⟨h.walk_same h' hg.nested hnumber, ?_⟩
  intro hmem
  rcases h.walk_insert h' hg.nested hnumber hmem with ⟨first, last, hold, hnew⟩
  rcases hg.walk_host h h' with ⟨hwalk, hgrown⟩
  rw [hwalk] at hold
  rw [hgrown] at hnew
  rw [hold, hnew]
  refine ⟨by simp, ?_⟩
  intro other hother
  simp only [List.mem_append, List.mem_cons] at hother ⊢
  tauto

/-- What is visited before and after the new dictionary. -/
theorem visits (hg : Grows key s t host before after) (h : Owned s) (h' : Owned t) :
    ∃ first last,
      s.visits = first ++ host :: (before.flatMap s.walk ++ (after.flatMap s.walk ++ last)) ∧
      t.visits = first ++ host ::
        (before.flatMap s.walk ++ s.dicts.size :: (after.flatMap s.walk ++ last)) := by
  rcases h.visits_insert h' hg.visited hg.nested hg.steps_eq with ⟨first, last, hold, hnew⟩
  rcases hg.walk_host h h' with ⟨hwalk, hgrown⟩
  refine ⟨first, last, ?_, ?_⟩
  · rw [hold, hwalk]
    simp
  · rw [hnew, hgrown]
    simp

theorem mem_visits (hg : Grows key s t host before after) (h : Owned s) (h' : Owned t) {number : Nat} :
    number ∈ t.visits ↔ number = s.dicts.size ∨ number ∈ s.visits := by
  rcases hg.visits h h' with ⟨first, last, hold, hnew⟩
  rw [hold, hnew]
  simp only [List.mem_append, List.mem_cons]
  tauto

end Grows

theorem Ordered.grow {host : Nat} {before after : List Nat} (ho : Ordered key s s.frames)
    (h : Owned s) (h' : Owned t) (hg : Grows key s t host before after)
    (hstamped : s.stamped key host = true)
    (hinner : ∀ frame ∈ s.frames, frame.opened = .step → frame.dict ≤ host) :
    Ordered key t s.frames := by
  have hvisits : ∀ {number}, number < s.dicts.size → number ∈ t.visits → number ∈ s.visits := by
    intro number hnumber hmem
    rcases (hg.mem_visits h h').mp hmem with rfl | hold
    · exact absurd hnumber (Nat.lt_irrefl _)
    · exact hold
  refine ⟨?_, ?_, ho.later, ?_, ?_⟩
  · intro number hvisited hplain other hother
    rcases (hg.mem_visits h h').mp hvisited with rfl | hold
    · rw [hg.stamped_new] at hplain
      cases hplain
    · have hnumber := h.visits_lt hold
      have hplain' : s.stamped key number = false := (hg.stamped number hnumber).symm.trans hplain
      have hhost : host ∉ s.walk number := by
        intro hmem
        rw [ho.plain number hold hplain' host hmem] at hstamped
        cases hstamped
      rw [(hg.walk h h' hnumber).1 hhost] at hother
      rw [hg.stamped other (h.walk_lt hnumber hother)]
      exact ho.plain number hold hplain' other hother
  · intro frame hmem hopened hvisited other hother hstamped' hlater
    have hlt := h.opened_lt frame hmem
    have hvisited' := hvisits hlt hvisited
    rcases hg.walk h h' hlt with ⟨hsame, hgrown⟩
    -- The host is within every open step, so the new step is too.
    have hhost : host ∈ s.walk frame.dict := by
      rcases Nat.eq_or_lt_of_le (hinner frame hmem hopened) with heq | hlt'
      · rw [heq]
        exact h.self_mem_walk host
      · exact ho.newest frame hmem hopened hvisited' host hg.visited hstamped hlt'
    rcases (hg.mem_visits h h').mp hother with rfl | hold
    · exact (hgrown hhost).1
    · apply (hgrown hhost).2
      rw [hg.stamped other (h.visits_lt hold)] at hstamped'
      exact ho.newest frame hmem hopened hvisited' other hold hstamped' hlater
  · intro frame hmem hopened
    rw [hg.stamped frame.dict (h.opened_lt frame hmem)]
    exact ho.stamped frame hmem hopened
  · intro frame hmem hvisited
    exact ho.within frame hmem (hvisits (h.opened_lt frame hmem) hvisited)

/-- The stamped dictionaries that are visited before the new one and after it. -/
theorem Grows.stampedVisits {host : Nat} {before after : List Nat}
    (hg : Grows key s t host before after) (h : Owned s) (h' : Owned t) :
    ∃ first last,
      s.visits = first ++ host :: (before.flatMap s.walk ++ (after.flatMap s.walk ++ last)) ∧
      s.stampedVisits key = (first ++ host :: before.flatMap s.walk).filter (s.stamped key) ++
        (after.flatMap s.walk ++ last).filter (s.stamped key) ∧
      t.stampedVisits key = (first ++ host :: before.flatMap s.walk).filter (s.stamped key) ++
        s.dicts.size :: (after.flatMap s.walk ++ last).filter (s.stamped key) := by
  rcases hg.visits h h' with ⟨first, last, hold, hnew⟩
  have hearly : ∀ number ∈ first ++ host :: before.flatMap s.walk, number ∈ s.visits := by
    intro number hmem
    rw [hold]
    simp only [List.mem_append, List.mem_cons] at hmem ⊢
    tauto
  have hlate : ∀ number ∈ after.flatMap s.walk ++ last, number ∈ s.visits := by
    intro number hmem
    rw [hold]
    simp only [List.mem_append, List.mem_cons] at hmem ⊢
    tauto
  -- The old dictionaries keep their stamps.
  have hfilter : ∀ numbers : List Nat, (∀ number ∈ numbers, number ∈ s.visits) →
      numbers.filter (t.stamped key) = numbers.filter (s.stamped key) := by
    intro numbers hnumbers
    apply List.filter_congr
    intro number hmem
    exact hg.stamped number (h.visits_lt (hnumbers number hmem))
  have hsplit : s.visits =
      (first ++ host :: before.flatMap s.walk) ++ (after.flatMap s.walk ++ last) := by
    rw [hold]
    simp
  have hgrown : t.visits =
      (first ++ host :: before.flatMap s.walk) ++ s.dicts.size :: (after.flatMap s.walk ++ last) := by
    rw [hnew]
    simp
  refine ⟨first, last, hold, ?_, ?_⟩
  · unfold State.stampedVisits
    rw [hsplit, List.filter_append]
  · unfold State.stampedVisits
    rw [hgrown, List.filter_append, List.filter_cons_of_pos hg.stamped_new, hfilter _ hearly,
      hfilter _ hlate]

/-- A greatest number keeps a list in order just if it is put at the end. -/
theorem pairwise_insert_iff {early late : List Nat} {new : Nat}
    (hearly : ∀ number ∈ early, number < new) (hlate : ∀ number ∈ late, number < new) :
    (early ++ new :: late).Pairwise (· < ·) ↔ (early ++ late).Pairwise (· < ·) ∧ late = [] := by
  constructor
  · intro hsorted
    refine ⟨hsorted.sublist ((List.sublist_cons_self new late).append_left early), ?_⟩
    apply List.eq_nil_iff_forall_not_mem.mpr
    intro number hmem
    rcases List.pairwise_append.mp hsorted with ⟨-, hrest, -⟩
    have hgt := (List.pairwise_cons.mp hrest).1 number hmem
    have hlt := hlate number hmem
    omega
  · rintro ⟨hsorted, rfl⟩
    rw [List.append_nil] at hsorted
    apply List.pairwise_append.mpr
    refine ⟨hsorted, List.pairwise_singleton _ _, ?_⟩
    intro number hnumber last hlast
    rw [List.mem_singleton.mp hlast]
    exact hearly number hnumber

/-- The visits stay in order just if the new step comes after all others in its host. -/
theorem Ordered.pairwise_grow {host : Nat} {before after : List Nat} {frames : List Frame}
    (ho : Ordered key s frames) (h : Owned s) (h' : Owned t) (hg : Grows key s t host before after)
    (hstamped : s.stamped key host = true)
    (hnewest : ∀ other ∈ s.visits, s.stamped key other = true → host < other →
      other ∈ s.walk host) :
    (t.stampedVisits key).Pairwise (· < ·) ↔
      (s.stampedVisits key).Pairwise (· < ·) ∧ ∀ other ∈ after, s.stamped key other = false := by
  rcases hg.stampedVisits h h' with ⟨first, last, hvisits, hold, hnew⟩
  have hmem : ∀ number, number ∈ s.visits ↔ number ∈ first ++ host :: before.flatMap s.walk ∨
      number ∈ after.flatMap s.walk ++ last := by
    intro number
    rw [hvisits]
    simp only [List.mem_append, List.mem_cons]
    tauto
  rw [hnew, hold, pairwise_insert_iff]
  · apply and_congr_right
    intro hsorted
    rcases List.pairwise_append.mp hsorted with ⟨-, -, hbetween⟩
    have hhost : host ∈ (first ++ host :: before.flatMap s.walk).filter (s.stamped key) :=
      List.mem_filter.mpr ⟨by simp, hstamped⟩
    rw [List.filter_eq_nil_iff]
    constructor
    · intro hnone other hother
      simpa using hnone other (List.mem_append_left _
        (List.mem_flatMap.mpr ⟨other, hother, h.self_mem_walk other⟩))
    · -- What comes after the new step is newer than the host, so it is within the host. There it
      -- is neither in the earlier lists, which are in order, nor in the later ones.
      intro hplain other hother hcase
      have hlate := List.mem_filter.mpr ⟨hother, hcase⟩
      have hlt : host < other := hbetween host hhost other hlate
      have hin := hnewest other ((hmem other).mpr (Or.inr hother)) hcase hlt
      rw [(hg.walk_host h h').1] at hin
      rcases List.mem_append.mp hin with hfirst | hafter
      · have hearly : other ∈ (first ++ host :: before.flatMap s.walk).filter (s.stamped key) :=
          List.mem_filter.mpr ⟨List.mem_append_right _ hfirst, hcase⟩
        exact Nat.lt_irrefl other (hbetween other hearly other hlate)
      · rcases List.mem_flatMap.mp hafter with ⟨child, hchild, hunder⟩
        have hvisited : child ∈ s.visits := by
          apply h.mem_visits_of_nested hg.visited
          rw [hg.nested_host]
          exact List.mem_append_right _ hchild
        rw [ho.plain child hvisited (hplain child hchild) other hunder] at hcase
        cases hcase
  · intro number hnumber
    exact h.visits_lt ((hmem number).mpr (Or.inl (List.mem_filter.mp hnumber).1))
  · intro number hnumber
    exact h.visits_lt ((hmem number).mpr (Or.inr (List.mem_filter.mp hnumber).1))

/-! ## A top-level step that is added -/

/-- A stamped dictionary is added to the top-level steps. -/
structure Begins (key : String) (s t : State) : Prop where
  steps_eq : t.steps.toList = s.steps.toList ++ [s.dicts.size]
  nested : ∀ number < s.dicts.size, t.nested number = s.nested number
  leaf : t.nested s.dicts.size = []
  stamped : ∀ number < s.dicts.size, t.stamped key number = s.stamped key number
  stamped_new : t.stamped key s.dicts.size = true

namespace Begins

theorem walk (hb : Begins key s t) (h : Owned s) (h' : Owned t) {number : Nat}
    (hnumber : number < s.dicts.size) : t.walk number = s.walk number := by
  have hnested : ∀ other < s.dicts.size, other ≠ s.dicts.size → t.nested other = s.nested other :=
    fun other hother _ => hb.nested other hother
  apply h.walk_same h' hnested hnumber
  intro hmem
  exact Nat.lt_irrefl _ (h.walk_lt hnumber hmem)

theorem visits (hb : Begins key s t) (h : Owned s) (h' : Owned t) :
    t.visits = s.visits ++ [s.dicts.size] := by
  have hnew : t.walk s.dicts.size = [s.dicts.size] := by
    rw [h'.walk_eq, hb.leaf]
    rfl
  have hold : s.steps.toList.flatMap t.walk = s.steps.toList.flatMap s.walk := by
    apply List.flatMap_congr
    intro step hstep
    exact hb.walk h h' (h.step_lt hstep)
  unfold State.visits
  rw [hb.steps_eq, List.flatMap_append, hold, List.flatMap_cons, List.flatMap_nil, hnew]
  rfl

theorem stampedVisits (hb : Begins key s t) (h : Owned s) (h' : Owned t) :
    t.stampedVisits key = s.stampedVisits key ++ [s.dicts.size] := by
  have hold : s.visits.filter (t.stamped key) = s.visits.filter (s.stamped key) := by
    apply List.filter_congr
    intro number hnumber
    exact hb.stamped number (h.visits_lt hnumber)
  unfold State.stampedVisits
  rw [hb.visits h h', List.filter_append, hold, List.filter_cons_of_pos hb.stamped_new]
  rfl

theorem pairwise (hb : Begins key s t) (h : Owned s) (h' : Owned t) :
    (t.stampedVisits key).Pairwise (· < ·) ↔ (s.stampedVisits key).Pairwise (· < ·) := by
  rw [hb.stampedVisits h h', List.pairwise_append]
  constructor
  · rintro ⟨hsorted, -, -⟩
    exact hsorted
  · intro hsorted
    refine ⟨hsorted, List.pairwise_singleton _ _, ?_⟩
    intro number hnumber new hnew
    rw [List.mem_singleton.mp hnew]
    exact h.visits_lt (List.mem_filter.mp hnumber).1

end Begins

theorem Ordered.begin (ho : Ordered key s []) (h : Owned s) (h' : Owned t) (hb : Begins key s t) :
    Ordered key t [] := by
  refine ⟨?_, by simp, .nil, by simp, by simp⟩
  intro number hvisited hplain other hother
  rw [hb.visits h h'] at hvisited
  rcases List.mem_append.mp hvisited with hold | hnew
  · have hlt := h.visits_lt hold
    rw [hb.walk h h' hlt] at hother
    rw [hb.stamped other (h.walk_lt hlt hother)]
    exact ho.plain number hold ((hb.stamped number hlt).symm.trans hplain) other hother
  · rw [List.mem_singleton.mp hnew, hb.stamped_new] at hplain
    cases hplain

end SolverLog.Builder
