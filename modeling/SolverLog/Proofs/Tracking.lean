import SolverLog.Proofs.Additions
import SolverLog.Proofs.Course

/-!
# Keeping track of the course

* `Tracks` — a course is that of the steps of a state.
* `Tracks.keep`, `Tracks.push` — what a record does: it changes the visited steps or leaves them,
  and it opens a section.
* `Tracks.read` — a record leads from a course of a state to that of the next state.
-/

namespace SolverLog.Builder

variable {key : String} {s t : State} {frames : List Frame} {course : Course}

/-! ## Open sections -/

/-- What an open section is for the course. -/
def Marks (key : String) (s : State) : Spot → Frame → Prop
  | .aside, frame => frame.opened ≠ .step
  | .hidden, frame => frame.opened = .step ∧ frame.dict ∉ s.visits
  | .visited lists, frame =>
    frame.opened = .step ∧ frame.dict ∈ s.visits ∧
      lists = levelLists (s.stamped key) (s.entries frame.dict)

/-- A course is that of the steps of a state, as far as these sections are open. -/
structure Tracks (key : String) (s : State) (frames : List Frame) (course : Course) : Prop where
  ordered : Ordered key s frames
  stack : List.Forall₂ (Marks key s) course.stack frames
  fastSteps_eq : course.fastSteps = s.fastSteps
  forward : course.forward = true ↔ (s.stampedVisits key).Pairwise (· < ·)

/-- What each open section stays, all of them stay. -/
theorem marks_forall {stack : List Spot} (h : List.Forall₂ (Marks key s) stack frames)
    (hmarks : ∀ frame ∈ frames, ∀ spot, Marks key s spot frame → Marks key t spot frame) :
    List.Forall₂ (Marks key t) stack frames := by
  apply List.forall₂_iff_zip.mpr
  refine ⟨h.length_eq, ?_⟩
  intro spot frame hmem
  exact hmarks frame (List.of_mem_zip hmem).2 spot ((List.forall₂_iff_zip.mp h).2 hmem)

/-- The innermost open step of the course is that of the state. -/
theorem marks_host {stack : List Spot} (h : List.Forall₂ (Marks key s) stack frames) :
    (Course.host? stack = none ∧ frames.find? (·.opened = .step) = none) ∨
      ∃ spot frame, Course.host? stack = some spot ∧
        frames.find? (·.opened = .step) = some frame ∧ Marks key s spot frame := by
  induction h with
  | nil => exact Or.inl ⟨rfl, rfl⟩
  | @cons spot frame stack frames hmarks hrest ih =>
      -- Sections that are no steps are passed over on both sides.
      cases spot with
      | aside =>
          have hne : frame.opened ≠ .step := hmarks
          simp only [Course.host?, List.find?_cons, hne, decide_false]
          exact ih
      | hidden =>
          exact Or.inr ⟨.hidden, frame, rfl, by simp [hmarks.1], hmarks⟩
      | visited lists =>
          exact Or.inr ⟨.visited lists, frame, rfl, by simp [hmarks.1], hmarks⟩

/-- Changing the lists of the innermost open step, if that is visited. -/
theorem marks_changeHost {stack : List Spot}
    (h : List.Forall₂ (Marks key s) stack frames) {host : Frame}
    (hfind : frames.find? (·.opened = .step) = some host) (hvisited : host.dict ∈ s.visits)
    (hlater : frames.Pairwise fun inner outer => outer.dict < inner.dict)
    {change : Entries Bool → Entries Bool}
    (hhost : ∀ lists, Marks key s (.visited lists) host → Marks key t (.visited (change lists)) host)
    (hrest : ∀ frame ∈ frames, frame.dict ≠ host.dict → ∀ spot, Marks key s spot frame →
      Marks key t spot frame) :
    List.Forall₂ (Marks key t) (Course.changeHost change stack) frames := by
  induction h with
  | nil => exact .nil
  | @cons spot frame stack frames hmarks hmore ih =>
      rcases List.pairwise_cons.mp hlater with ⟨houter, hlater'⟩
      cases spot with
      | aside =>
          have hne : frame.opened ≠ .step := hmarks
          simp only [List.find?_cons, hne, decide_false] at hfind
          refine .cons hne (ih hfind hlater' ?_)
          intro other hother
          exact hrest other (List.mem_cons_of_mem _ hother)
      | hidden =>
          have heq : frame = host := by simpa [hmarks.1] using hfind
          exact absurd (heq ▸ hvisited) hmarks.2
      | visited lists =>
          have heq : frame = host := by simpa [hmarks.1] using hfind
          subst heq
          refine .cons (hhost lists hmarks) ?_
          -- The sections outside of the host have other dictionaries.
          apply marks_forall hmore
          intro other hother
          exact hrest other (List.mem_cons_of_mem _ hother) (Nat.ne_of_lt (houter other hother))

/-! ## What a change does to the open sections -/

/-- An open section stays what it is for the course if its lists do. -/
theorem Marks.quiet {spot : Spot} {frame : Frame} (hmarks : Marks key s spot frame) (h : Owned s)
    (h' : Owned t) (hq : Quiet key s t) (hframe : frame.dict < s.dicts.size)
    (hlists : frame.opened = .step → frame.dict ∈ s.visits → ∀ stamped : Nat → Bool,
      levelLists stamped (t.entries frame.dict) = levelLists stamped (s.entries frame.dict)) :
    Marks key t spot frame := by
  have hvisits := hq.mem_visits h h' hframe
  cases spot with
  | aside => exact hmarks
  | hidden => exact ⟨hmarks.1, fun hvisited => hmarks.2 (hvisits.mp hvisited)⟩
  | visited lists =>
      rcases hmarks with ⟨hstep, hvisited, hold⟩
      refine ⟨hstep, hvisits.mpr hvisited, ?_⟩
      rw [hold, hlists hstep hvisited]
      apply levelLists_congr
      intro child hchild
      exact (hq.stamped child (h.nested_lt hchild).2).symm

/-- Nothing is added that is stamped and visited. -/
theorem Tracks.quiet (ht : Tracks key s s.frames course) (h : Owned s) (h' : Owned t)
    (hq : Quiet key s t) (hfast : t.fastSteps = s.fastSteps) {stack : List Spot}
    (hstack : List.Forall₂ (Marks key t) stack s.frames) :
    Tracks key t s.frames { course with stack := stack } where
  ordered := ht.ordered.quiet h h' hq
  stack := hstack
  fastSteps_eq := by
    rw [hfast]
    exact ht.fastSteps_eq
  forward := by
    rw [hq.stampedVisits h h']
    exact ht.forward

/-- Nothing is added that is visited. -/
theorem Tracks.keep (ht : Tracks key s s.frames course) (h : Owned s) (h' : Owned t)
    (hk : Keeps key s t) (hfast : t.fastSteps = s.fastSteps) : Tracks key t s.frames course := by
  apply ht.quiet h h' (hk.quiet h) hfast
  apply marks_forall ht.stack
  intro frame hframe spot hmarks
  apply hmarks.quiet h h' (hk.quiet h) (h.opened_lt frame hframe)
  intro _ hvisited
  exact hk.lists frame.dict hvisited

/-! ## Opening and closing sections -/

/-- The open sections and regions of the state itself are no matter. -/
theorem Tracks.congr (ht : Tracks key s frames course) (hdicts : t.dicts = s.dicts)
    (hsteps : t.steps = s.steps) {regions : Nat} (hfast : regions = t.fastSteps) :
    Tracks key t frames { course with fastSteps := regions } := by
  have hvisits : t.visits = s.visits := State.visits_congr hdicts hsteps
  have hentries : ∀ number, t.entries number = s.entries number := by
    intro number
    unfold State.entries
    rw [hdicts]
  have hstamped : t.stamped key = s.stamped key := by
    funext number
    unfold State.stamped State.stamp
    rw [hentries]
  refine ⟨⟨?_, ?_, ht.ordered.later, ?_, ?_⟩, ?_, hfast, ?_⟩
  · intro number
    rw [hvisits, hstamped, State.walk_congr hdicts]
    exact ht.ordered.plain number
  · intro frame
    rw [hvisits, hstamped, State.walk_congr hdicts]
    exact ht.ordered.newest frame
  · intro frame
    rw [hstamped]
    exact ht.ordered.stamped frame
  · intro frame
    rw [hvisits]
    exact ht.ordered.within frame
  · apply marks_forall ht.stack
    intro frame _ spot hmarks
    cases spot with
    | aside => exact hmarks
    | hidden =>
        show _ ∧ frame.dict ∉ t.visits
        rw [hvisits]
        exact hmarks
    | visited lists =>
        show _ ∧ frame.dict ∈ t.visits ∧ lists = levelLists (t.stamped key) (t.entries frame.dict)
        rw [hvisits, hstamped, hentries]
        exact hmarks
  · unfold State.stampedVisits
    rw [hvisits, hstamped]
    exact ht.forward

/-- The innermost open section is closed. -/
theorem Tracks.pop {frame : Frame} (ht : Tracks key s (frame :: frames) course) :
    Tracks key s frames { course with stack := course.stack.tail } where
  ordered := by
    rcases List.pairwise_cons.mp ht.ordered.later with ⟨hlater, hrest⟩
    refine ⟨ht.ordered.plain, ?_, hrest, ?_, ?_⟩
    · intro inner hinner
      exact ht.ordered.newest inner (List.mem_cons_of_mem _ hinner)
    · intro inner hinner
      exact ht.ordered.stamped inner (List.mem_cons_of_mem _ hinner)
    · intro inner hinner hvisited
      rcases ht.ordered.within inner (List.mem_cons_of_mem _ hinner) hvisited with
        ⟨outer, houter, hstep, hle⟩
      rcases List.mem_cons.mp houter with rfl | hmem
      · -- The section that is closed is newer than those around it.
        have hlt := hlater inner hinner
        omega
      · exact ⟨outer, hmem, hstep, hle⟩
  stack := by
    have hstack := ht.stack
    cases hcourse : course.stack with
    | nil =>
        rw [hcourse] at hstack
        cases hstack
    | cons spot outer =>
        rw [hcourse] at hstack
        exact (List.forall₂_cons.mp hstack).2
  fastSteps_eq := ht.fastSteps_eq
  forward := ht.forward

/-- A section is opened. If it is a step, then that is the newest dictionary. -/
theorem Tracks.push (ht : Tracks key s frames course) (h : Owned s) {frame : Frame} {spot : Spot}
    (hmarks : Marks key s spot frame) (hlater : ∀ outer ∈ frames, outer.dict < frame.dict)
    (hstep : frame.opened = .step →
      s.stamped key frame.dict = true ∧ s.dicts.size ≤ frame.dict + 1)
    (hwithin : frame.dict ∈ s.visits →
      frame.opened = .step ∨ ∃ outer ∈ frames, outer.opened = .step) :
    Tracks key s (frame :: frames) { course with stack := spot :: course.stack } where
  ordered := by
    refine ⟨ht.ordered.plain, ?_, List.pairwise_cons.mpr ⟨hlater, ht.ordered.later⟩, ?_, ?_⟩
    · intro inner hinner hopened hvisited other hother hstamped hlt
      rcases List.mem_cons.mp hinner with rfl | hmem
      · -- Nothing is newer than a step that begins now.
        have hsize := (hstep hopened).2
        have hotherLt := h.visits_lt hother
        omega
      · exact ht.ordered.newest inner hmem hopened hvisited other hother hstamped hlt
    · intro inner hinner hopened
      rcases List.mem_cons.mp hinner with rfl | hmem
      · exact (hstep hopened).1
      · exact ht.ordered.stamped inner hmem hopened
    · intro inner hinner hvisited
      rcases List.mem_cons.mp hinner with rfl | hmem
      · rcases hwithin hvisited with hopened | ⟨outer, houter, hopened⟩
        · exact ⟨inner, List.mem_cons_self, hopened, Nat.le_refl _⟩
        · have hlt := hlater outer houter
          exact ⟨outer, List.mem_cons_of_mem _ houter, hopened, Nat.le_of_lt hlt⟩
      · rcases ht.ordered.within inner hmem hvisited with ⟨outer, houter, hopened, hle⟩
        exact ⟨outer, List.mem_cons_of_mem _ houter, hopened, hle⟩
  stack := .cons hmarks ht.stack
  fastSteps_eq := ht.fastSteps_eq
  forward := ht.forward

/-! ## Records -/

/-- The current dictionary is the newest one with an open section. -/
theorem Ordered.le_current (ho : Ordered key s s.frames) :
    ∀ frame ∈ s.frames, frame.dict ≤ s.current := by
  intro frame hframe
  have hlater := ho.later
  unfold State.current
  cases hframes : s.frames with
  | nil =>
      rw [hframes] at hframe
      cases hframe
  | cons top outer =>
      rw [hframes] at hframe hlater
      rcases List.mem_cons.mp hframe with rfl | hmem
      · exact Nat.le_refl _
      · exact Nat.le_of_lt ((List.pairwise_cons.mp hlater).1 frame hmem)

/-- What is visited and current is within an open step. -/
theorem Ordered.within_current (ho : Ordered key s s.frames) (h : Owned s)
    (hvisited : s.current ∈ s.visits) : ∃ outer ∈ s.frames, outer.opened = .step := by
  unfold State.current at hvisited
  split at hvisited
  · exact absurd hvisited h.globals_not_mem_visits
  · next top outer hframes =>
      have htop : top ∈ s.frames := hframes ▸ List.mem_cons_self
      rcases ho.within top htop hvisited with ⟨frame, hframe, hstep, -⟩
      exact ⟨frame, hframe, hstep⟩

/-- A section that is no step is opened. -/
theorem Tracks.aside (ht : Tracks key t frames course) (h' : Owned t) {frame : Frame}
    (hlater : ∀ outer ∈ frames, outer.dict < frame.dict) (hopened : frame.opened ≠ .step)
    (hwithin : frame.dict ∈ t.visits → ∃ outer ∈ frames, outer.opened = .step) :
    Tracks key t (frame :: frames) { course with stack := .aside :: course.stack } := by
  have hmarks : Marks key t .aside frame := hopened
  apply ht.push h' hmarks hlater
  · intro hstep
    exact absurd hstep hopened
  · intro hvisited
    exact Or.inr (hwithin hvisited)

/-- A section of fixed name is opened that was open before. -/
theorem Tracks.enterAgain (ht : Tracks key s s.frames course) (h : Owned s) (h' : Owned t)
    (hk : Keeps key s t) (hfast : t.fastSteps = s.fastSteps) {frame : Frame} {name : String}
    (hopened : frame.opened = .plain name)
    (hheld : (s.entries s.current).value? name = some (.dict frame.dict)) :
    Tracks key t (frame :: s.frames) { course with stack := .aside :: course.stack } := by
  have hentry := Entries.mem_of_value? hheld
  have hchild : HeldBy s frame.dict s.current :=
    heldBy_iff.mpr ⟨_, hentry, List.mem_singleton_self _⟩
  apply (ht.keep h h' hk hfast).aside h'
  · intro outer houter
    have hle := ht.ordered.le_current outer houter
    have hlt := h.heldBy_lt hchild
    omega
  · rw [hopened]
    simp
  · intro hvisited
    have hlt := h.child_lt hentry (List.mem_singleton_self _)
    -- The history visits elements of lists, not what stands at a key.
    rw [(hk.quiet h).mem_visits h h' hlt] at hvisited
    exact absurd hvisited (h.not_mem_visits_of_dict hentry)

/-- A section is opened that adds nothing to what is visited. -/
theorem Tracks.enterUnvisited (ht : Tracks key s s.frames course) (h : Owned s) (h' : Owned t)
    (hk : Keeps key s t) (hfast : t.fastSteps = s.fastSteps) {frame : Frame}
    (hdict : frame.dict = s.dicts.size) (hopened : frame.opened ≠ .step) :
    Tracks key t (frame :: s.frames) { course with stack := .aside :: course.stack } := by
  apply (ht.keep h h' hk hfast).aside h' _ hopened
  · intro hvisited
    rw [hdict] at hvisited
    exact absurd hvisited (hk.not_mem_visits h h' (Nat.le_refl _))
  · intro outer houter
    rw [hdict]
    exact h.opened_lt outer houter

/-- What the innermost open section is for the course may change, but not what the others are. -/
theorem Tracks.marks_outer {list : String} {top : Frame} {outer : List Frame}
    (ht : Tracks key s s.frames course) (h : Owned s) (h' : Owned t)
    (ha : Adds key (.entry list) s t) (hq : Quiet key s t) (hframes : s.frames = top :: outer) :
    ∀ frame ∈ outer, ∀ spot, Marks key s spot frame → Marks key t spot frame := by
  intro frame hframe spot hmarks
  have hmem : frame ∈ s.frames := hframes ▸ List.mem_cons_of_mem _ hframe
  have hlater := ht.ordered.later
  rw [hframes] at hlater
  have hlt := (List.pairwise_cons.mp hlater).1 frame hframe
  apply hmarks.quiet h h' hq (h.opened_lt frame hmem)
  intro _ _
  apply (ha.same h (h.opened_lt frame hmem) _).2
  intro parent other hplace hparent
  have hcurrent : s.current = top.dict := by
    unfold State.current
    rw [hframes]
  cases hplace
  omega

/-- What the open sections are for the course after an element is added to a list of fast steps. -/
theorem Tracks.marks_entry {list : String} (ht : Tracks key s s.frames course) (h : Owned s)
    (h' : Owned t) (ha : Adds key (.entry list) s t) (hkey : History.isTimeLevelKey list = true)
    (hnew : t.stamped key s.dicts.size = false) :
    ∃ stack, List.Forall₂ (Marks key t) stack s.frames ∧
      course.enterEntry list = { course with stack := .aside :: stack } := by
  have hq := ha.quiet h h' rfl hkey hnew
  have hstack := ht.stack
  unfold Course.enterEntry
  cases hframes : s.frames with
  | nil =>
      rw [hframes] at hstack
      rw [List.forall₂_nil_right_iff.mp hstack]
      exact ⟨[], .nil, rfl⟩
  | cons top outer =>
      have htop : top ∈ s.frames := hframes ▸ List.mem_cons_self
      have htopLt := h.opened_lt top htop
      have houter := ht.marks_outer h h' ha hq hframes
      rw [hframes] at hstack
      rcases List.forall₂_cons_right_iff.mp hstack with ⟨spot, spots, hmarks, hrest, hspots⟩
      have hrest' := marks_forall hrest houter
      rw [hspots]
      -- Only a visited step has lists that matter, and only in the innermost section do they
      -- change.
      cases spot with
      | aside =>
          have haside : Marks key t .aside top := hmarks
          exact ⟨_, .cons haside hrest', rfl⟩
      | hidden =>
          refine ⟨_, .cons ?_ hrest', rfl⟩
          apply hmarks.quiet h h' hq htopLt
          intro _ hvisited
          exact absurd hvisited hmarks.2
      | visited lists =>
          rcases hmarks with ⟨hstep, hvisited, hold⟩
          have hcurrent : s.current = top.dict := by
            unfold State.current
            rw [hframes]
          have hlists := (ha.element h rfl hkey).2
          rw [hcurrent, ← hold, hnew, Bool.or_false] at hlists
          refine ⟨.visited (lists.put list ((lists.value? list).getD false)) :: spots,
            .cons ?_ hrest', by simp [hkey]⟩
          exact ⟨hstep, (hq.mem_visits h h' htopLt).mpr hvisited, hlists.symm⟩

/-- A list entry is opened. -/
theorem Tracks.enterEntry {list : String} (ht : Tracks key s s.frames course) (h : Owned s)
    (h' : Owned t) (ha : Adds key (.entry list) s t) (hfast : t.fastSteps = s.fastSteps)
    (hnew : t.stamped key s.dicts.size = false) {frame : Frame} (hdict : frame.dict = s.dicts.size)
    (hopened : frame.opened = .entry list) :
    Tracks key t (frame :: s.frames) (course.enterEntry list) := by
  have hne : frame.opened ≠ .step := by
    rw [hopened]
    simp
  cases hkey : History.isTimeLevelKey list with
  | false =>
      have hcourse : course.enterEntry list = { course with stack := .aside :: course.stack } := by
        unfold Course.enterEntry
        split
        · next hstack => rw [if_neg (by simp [hkey])]
        · rfl
      have hk : Keeps key s t := by
        apply ha.keeps h
        · simp [State.place]
        · intro parent other hplace _
          cases hplace
          exact hkey
      rw [hcourse]
      exact ht.enterUnvisited h h' hk hfast hdict hne
  | true =>
      have hq := ha.quiet h h' rfl hkey hnew
      rcases ht.marks_entry h h' ha hkey hnew with ⟨stack, hstack, hcourse⟩
      rw [hcourse]
      apply (ht.quiet h h' hq hfast hstack).aside h' _ hne
      · intro hvisited
        rw [hdict] at hvisited
        exact ht.ordered.within_current h (ha.holder_visited h h' hq rfl hvisited)
      · intro outer houter
        rw [hdict]
        exact h.opened_lt outer houter

/-- A new step is what a visited one without lists is for the course. -/
theorem Adds.marks_new (ha : Adds key .step s t) (h : Owned s) (hvisited : s.dicts.size ∈ t.visits)
    {frame : Frame} (hdict : frame.dict = s.dicts.size) (hopened : frame.opened = .step) :
    Marks key t (.visited []) frame := by
  refine ⟨hopened, ?_, ?_⟩
  · rw [hdict]
    exact hvisited
  · rw [hdict, ha.lists_new h]

/-- A step is opened while nothing else is. -/
theorem Tracks.enterTopStep (ht : Tracks key s s.frames course) (h : Owned s) (h' : Owned t)
    (ha : Adds key .step s t) (hfast : t.fastSteps = s.fastSteps)
    (hnew : t.stamped key s.dicts.size = true) {frame : Frame} (hdict : frame.dict = s.dicts.size)
    (hopened : frame.opened = .step) (hframes : s.frames = []) :
    Tracks key t (frame :: s.frames) { course with stack := [.visited []] } := by
  have hplace : s.place .step = .topLevel := by simp [State.place, hframes]
  have hb := ha.begins h hplace hnew
  have hordered := ht.ordered
  rw [hframes] at hordered
  have hclosed : Tracks key t [] { course with stack := [] } := by
    refine ⟨hordered.begin h h' hb, .nil, ?_, ?_⟩
    · rw [hfast]
      exact ht.fastSteps_eq
    · rw [hb.pairwise h h']
      exact ht.forward
  have hvisited : s.dicts.size ∈ t.visits := by
    rw [hb.visits h h']
    simp
  rw [hframes]
  apply hclosed.push h' (ha.marks_new h hvisited hdict hopened)
  · simp
  · intro _
    rw [hdict, ha.size_eq]
    exact ⟨hnew, Nat.le_refl _⟩
  · intro _
    exact Or.inl hopened

/-- A step is opened that is not visited. -/
theorem Tracks.enterHiddenStep (ht : Tracks key s s.frames course) (h : Owned s) (h' : Owned t)
    (ha : Adds key .step s t) (hk : Keeps key s t) (hfast : t.fastSteps = s.fastSteps)
    (hnew : t.stamped key s.dicts.size = true) {frame : Frame} (hdict : frame.dict = s.dicts.size)
    (hopened : frame.opened = .step) :
    Tracks key t (frame :: s.frames) { course with stack := .hidden :: course.stack } := by
  have hhidden : frame.dict ∉ t.visits := by
    rw [hdict]
    exact hk.not_mem_visits h h' (Nat.le_refl _)
  have hmarks : Marks key t .hidden frame := ⟨hopened, hhidden⟩
  apply (ht.keep h h' hk hfast).push h' hmarks
  · intro outer houter
    rw [hdict]
    exact h.opened_lt outer houter
  · intro _
    rw [hdict, ha.size_eq]
    exact ⟨hnew, Nat.le_refl _⟩
  · intro hvisited
    exact absurd hvisited hhidden

/-- No open step is newer than the innermost one. -/
theorem Ordered.le_host (ho : Ordered key s s.frames) {host : Frame}
    (hfind : s.frames.find? (·.opened = .step) = some host) :
    ∀ frame ∈ s.frames, frame.opened = .step → frame.dict ≤ host.dict := by
  rcases List.find?_eq_some_iff_append.mp hfind with ⟨-, inner, outer, hframes, hinner⟩
  intro frame hframe hopened
  rw [hframes] at hframe
  rcases List.mem_append.mp hframe with hmem | hmem
  · have hne := hinner frame hmem
    simp [hopened] at hne
  · rcases List.mem_cons.mp hmem with rfl | houter
    · exact Nat.le_refl _
    · have hlater := ho.later
      rw [hframes] at hlater
      have hrest := (List.pairwise_append.mp hlater).2.1
      exact Nat.le_of_lt ((List.pairwise_cons.mp hrest).1 frame houter)

theorem isTimeLevelKey_timeLevelKey (level : Nat) :
    History.isTimeLevelKey (Step.timeLevelKey level) = true := by
  unfold History.isTimeLevelKey Step.timeLevelKey
  rw [String.toList_append]
  exact List.isPrefixOf_iff_prefix.mpr (List.prefix_append _ _)

/-- What the open sections are for the course after a step is added to a list of fast steps. -/
theorem Tracks.marks_grow {list : String} {host : Frame} {before after : List Nat}
    (ht : Tracks key s s.frames course) (h : Owned s) (h' : Owned t) (ha : Adds key .step s t)
    (hg : Grows key s t host.dict before after) (hkey : History.isTimeLevelKey list = true)
    (hplace : s.place .step = .element host.dict list)
    (hfind : s.frames.find? (·.opened = .step) = some host) :
    List.Forall₂ (Marks key t) (Course.changeHost (·.put list true) course.stack) s.frames := by
  apply marks_changeHost ht.stack hfind hg.visited ht.ordered.later
  · rintro lists ⟨hstep, hvisited, hold⟩
    refine ⟨hstep, (hg.mem_visits h h').mpr (Or.inr hvisited), ?_⟩
    rw [(ha.element h hplace hkey).2, hg.stamped_new, Bool.or_true, hold]
  · intro frame hframe hne spot hmarks
    have hlt := h.opened_lt frame hframe
    cases spot with
    | aside => exact hmarks
    | hidden =>
        refine ⟨hmarks.1, ?_⟩
        intro hvisited
        rcases (hg.mem_visits h h').mp hvisited with hnew | hold
        · omega
        · exact hmarks.2 hold
    | visited lists =>
        rcases hmarks with ⟨hstep, hvisited, hold⟩
        refine ⟨hstep, (hg.mem_visits h h').mpr (Or.inr hvisited), ?_⟩
        rw [hold, (ha.same_of_ne h hplace hlt hne).2]
        apply levelLists_congr
        intro child hchild
        exact (ha.stamped child (h.nested_lt hchild).2).symm

/-- A step is opened in a list of fast steps of a visited step. -/
theorem Tracks.enterFastStep {list : String} {host : Frame} {lists : Entries Bool}
    (ht : Tracks key s s.frames course) (h : Owned s) (h' : Owned t) (ha : Adds key .step s t)
    (hfast : t.fastSteps = s.fastSteps) (hnew : t.stamped key s.dicts.size = true) {frame : Frame}
    (hdict : frame.dict = s.dicts.size) (hopened : frame.opened = .step)
    (hkey : History.isTimeLevelKey list = true) (hplace : s.place .step = .element host.dict list)
    (hfind : s.frames.find? (·.opened = .step) = some host)
    (hmarks : Marks key s (.visited lists) host) :
    Tracks key t (frame :: s.frames)
      { course with
        stack := .visited [] :: Course.changeHost (·.put list true) course.stack
        forward := course.forward && isLastList lists list } := by
  rcases hmarks with ⟨hstep, hvisited, hold⟩
  have hhost : host ∈ s.frames := List.mem_of_find?_eq_some hfind
  have hstamped := ht.ordered.stamped host hhost hstep
  rcases ha.grows h hplace hkey hvisited hnew with ⟨before, after, hg, hlast⟩
  -- The host is the innermost open step, so all that is newer is within it.
  have hsorted := ht.ordered.pairwise_grow h h' hg hstamped
    (ht.ordered.newest host hhost hstep hvisited)
  have hgrown : Tracks key t s.frames
      { course with
        stack := Course.changeHost (·.put list true) course.stack
        forward := course.forward && isLastList lists list } := by
    refine ⟨?_, ht.marks_grow h h' ha hg hkey hplace hfind, ?_, ?_⟩
    · exact ht.ordered.grow h h' hg hstamped (ht.ordered.le_host hfind)
    · rw [hfast]
      exact ht.fastSteps_eq
    · rw [hsorted, ← ht.forward, ← hlast, ← hold]
      exact Bool.and_eq_true_iff
  have hvisitedNew : s.dicts.size ∈ t.visits := (hg.mem_visits h h').mpr (Or.inl rfl)
  apply hgrown.push h' (ha.marks_new h hvisitedNew hdict hopened)
  · intro outer houter
    rw [hdict]
    exact h.opened_lt outer houter
  · intro _
    rw [hdict, ha.size_eq]
    exact ⟨hnew, Nat.le_refl _⟩
  · intro _
    exact Or.inl hopened

/-- A step is opened. -/
theorem Tracks.enterStep (ht : Tracks key s s.frames course) (h : Owned s) (h' : Owned t)
    (ha : Adds key .step s t) (hfast : t.fastSteps = s.fastSteps)
    (hnew : t.stamped key s.dicts.size = true) {frame : Frame} (hdict : frame.dict = s.dicts.size)
    (hopened : frame.opened = .step) : Tracks key t (frame :: s.frames) course.enterStep := by
  have hempty : course.stack.isEmpty = true ↔ s.frames = [] := by
    rw [List.isEmpty_iff, ← List.length_eq_zero_iff, ht.stack.length_eq, List.length_eq_zero_iff]
  unfold Course.enterStep
  by_cases hframes : s.frames = []
  · rw [if_pos (hempty.mpr hframes)]
    exact ht.enterTopStep h h' ha hfast hnew hdict hopened hframes
  rw [if_neg fun hstack => hframes (hempty.mp hstack)]
  by_cases hopen : s.fastSteps = 0
  · -- Steps outside of fast steps are listed where the history does not look.
    have hplace : s.place .step = .element s.current Step.evolveKey := by
      simp [State.place, hframes, hopen]
    have hk : Keeps key s t := ha.keeps_of_element h hplace fun _ => by decide
    rw [if_pos (ht.fastSteps_eq.trans hopen)]
    exact ht.enterHiddenStep h h' ha hk hfast hnew hdict hopened
  have hplace : s.place .step = .element s.host (Step.timeLevelKey course.fastSteps) := by
    simp [State.place, hframes, hopen, ht.fastSteps_eq]
  -- From here on the place is a list of fast steps of the host.
  have hunvisited : s.host ∉ s.visits → Keeps key s t := by
    intro hhost
    apply ha.keeps_of_element h hplace
    intro hvisited
    exact absurd hvisited hhost
  rw [if_neg (ht.fastSteps_eq ▸ hopen)]
  rcases marks_host ht.stack with ⟨hnone, hfind⟩ | ⟨spot, host, hsome, hfind, hmarks⟩
  · have hk : Keeps key s t := by
      apply hunvisited
      intro hvisited
      have hcurrent : s.host = s.current := by simp [State.host, hfind]
      rw [hcurrent] at hvisited
      rcases ht.ordered.within_current h hvisited with ⟨outer, houter, hstep⟩
      have hno := List.find?_eq_none.mp hfind outer houter
      simp [hstep] at hno
    rw [hnone]
    exact ht.enterHiddenStep h h' ha hk hfast hnew hdict hopened
  · have hhost : s.host = host.dict := by simp [State.host, hfind]
    rw [hsome]
    cases spot with
    | aside =>
        have hstep : host.opened = .step := by simpa using List.find?_some hfind
        exact absurd hstep hmarks
    | hidden =>
        have hk := hunvisited (hhost ▸ hmarks.2)
        exact ht.enterHiddenStep h h' ha hk hfast hnew hdict hopened
    | visited lists =>
        rw [hhost] at hplace
        exact ht.enterFastStep h h' ha hfast hnew hdict hopened (isTimeLevelKey_timeLevelKey _)
          hplace hfind hmarks

/-! ## Whole records -/

/-- Setting fields adds nothing to what is visited, unless it sets the key of the stamps. -/
theorem keeps_sets {line : Nat} {fields : Payload} (h : Owned s)
    (hsets : run line (Move.sets fields) s = .reached t) (hkey : fields.value? key = none) :
    Keeps key s t where
  steps_eq := (unchanged_of_run_sets hsets).2.1
  nested := fun number _ => nested_sets h hsets number
  leaf := by
    intro number hnumber
    rw [nested_sets h hsets]
    exact State.nested_of_size_le hnumber
  lists := fun number _ stamped => levelLists_sets h hsets stamped number
  stamped := by
    intro number _
    unfold State.stamped
    rw [stamp_sets_of_none h hsets hkey]

theorem Tracks.sets {line : Nat} {fields : Payload} (ht : Tracks key s s.frames course)
    (h : Owned s) (hsets : run line (Move.sets fields) s = .reached t)
    (hkey : fields.value? key = none) : Tracks key t t.frames course := by
  have h' : Owned t := run_invariant (fun hs hstep => hs.step hstep) h hsets
  rcases unchanged_of_run_sets hsets with ⟨hframes, -, hfast⟩
  rw [hframes]
  exact ht.keep h h' (keeps_sets h hsets hkey) hfast

/-- Opening a section again adds nothing. -/
theorem keeps_enterAgain {line number : Nat} {opened : Section} {fields : Payload}
    (hentered : Owned (s.enter line opened number))
    (hsets : run line (Move.sets fields) (s.enter line opened number) = .reached t)
    (hstamp : ∀ number < s.dicts.size, t.stamp key number = s.stamp key number) :
    Keeps key s t where
  steps_eq := (unchanged_of_run_sets hsets).2.1
  nested := fun number _ => nested_sets hentered hsets number
  leaf := by
    intro number hnumber
    rw [nested_sets hentered hsets]
    exact State.nested_of_size_le hnumber
  lists := fun number _ stamped => levelLists_sets hentered hsets stamped number
  stamped := by
    intro number hnumber
    unfold State.stamped
    rw [hstamp number hnumber]

/-- A section is opened, and fields are set. -/
theorem Tracks.enter {line : Nat} {fields : Payload} {opened : Section} {entered : State}
    (ht : Tracks key s s.frames course) (h : Owned s)
    (henter : Transition line s (.enter opened) entered)
    (hsets : run line (Move.sets fields) entered = .reached t)
    (hstamp : ∀ number < s.dicts.size, t.stamp key number = s.stamp key number)
    (hnew : t.stamped key s.dicts.size = true ↔ opened = .step) :
    Tracks key t t.frames (course.enter opened) := by
  have hentered : Owned entered := h.step henter
  have h' : Owned t := run_invariant (fun hs hstep => hs.step hstep) hentered hsets
  rcases unchanged_of_run_sets hsets with ⟨hframes, -, hfast⟩
  rw [henter.fastSteps_enter] at hfast
  rw [hframes]
  cases henter with
  | enterAgain hheld =>
      rcases State.value?_of_held hheld with ⟨parent, name, hplace, hslot⟩
      rcases State.eq_plain_of_place hplace with rfl
      cases hplace
      exact ht.enterAgain h h' (keeps_enterAgain hentered hsets hstamp) hfast rfl hslot
  | enterNew hfree =>
      have ha : Adds key opened s t := adds_of_enterNew h hfree hsets hstamp
      show Tracks key t (_ :: State.frames (State.addAt ..)) _
      rw [State.frames_addAt]
      cases opened with
      | plain name =>
          have hk : Keeps key s t := by
            apply ha.keeps h
            · simp [State.place]
            · intro parent list hplace
              cases hplace
          exact ht.enterUnvisited h h' hk hfast rfl (by simp)
      | entry list =>
          have hplain : t.stamped key s.dicts.size = false := by simpa using hnew
          exact ht.enterEntry h h' ha hfast hplain rfl rfl
      | step => exact ht.enterStep h h' ha hfast (hnew.mpr rfl) rfl rfl

variable {line : Nat} {record : Record}

/-- A record is read that sets the key of the stamps just if it begins a step. -/
theorem Tracks.read (ht : Tracks key s s.frames course) (h : Owned s) (hkey : key ≠ Step.levelKey)
    (hstep : RecordStep line record s t)
    (hpayload : (record.payload.value? key).isSome = true ↔
      Marker.ofLabel record.label = .opens .step) :
    Tracks key t t.frames (course.read record) := by
  have hnone : Marker.ofLabel record.label ≠ .opens .step → record.payload.value? key = none := by
    intro hne
    cases hvalue : record.payload.value? key with
    | none => rfl
    | some held => exact absurd (hpayload.mp (by simp [hvalue])) hne
  unfold Course.read
  cases hstep with
  | remark hmarker hsets =>
      rw [hmarker]
      exact ht.sets h hsets (hnone (by simp [hmarker]))
  | @opens opened entered hmarker henter hsets =>
      rw [hmarker]
      by_cases hopened : opened = .step
      · subst hopened
        rcases stamp_begins h hkey henter hsets with ⟨hstamp, hother⟩
        apply ht.enter h henter hsets
        · intro number hnumber
          exact hother number (Nat.ne_of_lt hnumber)
        · unfold State.stamped
          rw [hstamp]
          simpa [hmarker] using hpayload
      · have hmissing := hnone (by simpa [hmarker] using hopened)
        have hstamp := RecordStep.stamp_other h hkey (.opens hmarker henter hsets) hmissing
        apply ht.enter h henter hsets
        · intro number _
          exact hstamp number
        · unfold State.stamped
          rw [hstamp, stamp_of_size_le (Nat.le_refl _)]
          simp [hopened]
  | @closes closed frame outer filled hmarker hframes hopened hsets hleave =>
      rw [hmarker]
      have hfilled := ht.sets h hsets (hnone (by simp [hmarker]))
      have hsame : filled.frames = frame :: outer := (unchanged_of_run_sets hsets).1.trans hframes
      rw [hsame] at hfilled
      rw [hleave]
      show Tracks key _ filled.frames.tail _
      rw [hsame]
      refine hfilled.pop.congr ?_ ?_ hfilled.fastSteps_eq
      · rfl
      · rfl
  | @beginsFastSteps filled hmarker hsets hfast =>
      rw [hmarker]
      have hfilled := ht.sets h hsets (hnone (by simp [hmarker]))
      rw [hfast]
      refine hfilled.congr ?_ ?_ (congrArg (· + 1) hfilled.fastSteps_eq)
      · rfl
      · rfl
  | @endsFastSteps filled hmarker hopen hsets hfast =>
      rw [hmarker]
      have hfilled := ht.sets h hsets (hnone (by simp [hmarker]))
      rw [hfast]
      refine hfilled.congr ?_ ?_ (congrArg (· - 1) hfilled.fastSteps_eq)
      · rfl
      · rfl

end SolverLog.Builder
