import SolverLog.Proofs.Attempt
import SolverLog.Proofs.Concatenation
import SolverLog.Proofs.Lists
import SolverLog.Proofs.Permanence

/-!
# The register of the steps

While a log is read, every attempt gets a dictionary of its own. A register says which one, and what
that one is: where it stands, what it holds first, and in whose list it is.

* `Registers` — the register of the attempts so far, as an invariant of the state.
* `Registers.record` — a record that begins a step adds one attempt, and any other leaves the register
  as it is.
* `Draws.lines_invariant` — what every record preserves holds of the lines of a log and their attempts.
* `Registers.ofLines` — the register of the attempts of a log.
-/

namespace SolverLog

/-- The key of the list in which the step of an attempt stands, if it is not a top-level step. -/
def Attempt.listKey (attempt : Attempt) : String :=
  if attempt.level = 0 then Step.evolveKey else Step.timeLevelKey attempt.level

namespace Builder

variable {s t : State} {path path' : Nat → Path} {before : List String}
  {register : List (Nat × Attempt)}

/-- An attempt has the dictionary of that number, given the lines so far. -/
structure Registered (path : Nat → Path) (s : State) (before : List String) (number : Nat)
    (attempt : Attempt) : Prop where
  lt : number < s.dicts.size
  isOf : attempt.IsOf before
  path_eq : attempt.path = path number
  level : (s.entries number).head? = some (Step.levelKey, .value (.integer attempt.level))

/-- An attempt within a section has its dictionary in a list, and it is reachable just if that is a
list of fast steps of a reachable attempt. -/
structure Inner (s : State) (register : List (Nat × Attempt)) (number : Nat) (attempt : Attempt) :
    Prop where
  listed : ∃ parent numbers, (attempt.listKey, Slot.list numbers) ∈ s.entries parent ∧
    number ∈ numbers ∧
      (attempt.reachable = true ↔ attempt.level ≠ 0 ∧
        ∃ host ∈ register, host.1 = parent ∧ host.2.reachable = true)

/-- An open section is that of an attempt, or it is no step and its dictionary is that of no
attempt. -/
def Frame.MarkedBy (register : List (Nat × Attempt)) (frame : Frame) : Prop :=
  (frame.opened = .step ∧ ∃ entry ∈ register, entry.1 = frame.dict ∧ entry.2.line = frame.line) ∨
    frame.opened ≠ .step ∧ frame.dict ∉ register.map Prod.fst

/-- The register of the attempts after the lines so far. List entries are in no other lists than
those of certain names. -/
structure Registers (lists : String → Prop) (path : Nat → Path) (s : State) (before : List String)
    (register : List (Nat × Attempt)) : Prop where
  fastSteps_eq : (s.fastSteps : Int) = regionsOf before
  registered : ∀ entry ∈ register, Registered path s before entry.1 entry.2
  nodup_numbers : (register.map Prod.fst).Nodup
  nodup_lines : (register.map (·.2.line)).Nodup
  steps_eq : s.steps.toList = (register.filter (·.2.outermost)).map Prod.fst
  outermost : ∀ entry ∈ register, entry.2.outermost = true → entry.2.reachable = true
  inner : ∀ entry ∈ register, entry.2.outermost = false → Inner s register entry.1 entry.2
  frames : ∀ frame ∈ s.frames, frame.MarkedBy register
  listed : ∀ {parent : Nat} {key : String} {numbers : List Nat} {number : Nat},
    (key, Slot.list numbers) ∈ s.entries parent → number ∈ numbers →
      number ∈ register.map Prod.fst ∨ lists key

theorem Registers.initial (lists : String → Prop) :
    Registers lists (fun _ => .globals) .initial [] [] where
  fastSteps_eq := rfl
  registered := by simp
  nodup_numbers := .nil
  nodup_lines := .nil
  steps_eq := rfl
  outermost := by simp
  inner := by simp
  frames := by simp [State.initial]
  listed := by simp [State.entries_initial]

/-! ## What stays registered -/

/-- What a dictionary holds first is what it holds first in a larger state, if it is an integer. -/
theorem State.EmbedsIn.head? (h : s.EmbedsIn t) {number : Nat} {key : String} {value : Int}
    (hfirst : (s.entries number).head? = some (key, .value (.integer value))) :
    (t.entries number).head? = some (key, .value (.integer value)) := by
  have hembed := h.entries number
  generalize s.entries number = d at hembed hfirst
  generalize t.entries number = e at hembed
  cases hembed with
  | nil => cases hfirst
  | cons hslot _ =>
      cases hfirst
      cases hslot with
      | value hvalue =>
          cases hvalue
          rfl

theorem State.lt_size_of_head? {number : Nat} {entry : String × Slot}
    (h : (s.entries number).head? = some entry) : number < s.dicts.size := by
  by_contra hge
  rw [State.entries_of_size_le (Nat.le_of_not_lt hge)] at h
  cases h

theorem Registered.keep {number : Nat} {attempt : Attempt}
    (h : Registered path s before number attempt) (hgrow : s.EmbedsIn t)
    (hpath : path' number = path number) (more : List String) :
    Registered path' t (before ++ more) number attempt where
  lt := State.lt_size_of_head? (hgrow.head? h.level)
  isOf := h.isOf.append more
  path_eq := h.path_eq.trans hpath.symm
  level := hgrow.head? h.level

/-- What the dictionary of an attempt stands for has the level first. -/
theorem Registered.head?_dictOf {number : Nat} {attempt : Attempt}
    (h : Registered path s before number attempt) (howned : Owned s) :
    (s.dictOf number).head? = some (Step.levelKey, .value (.integer attempt.level)) := by
  rw [howned.dictOf_eq, List.head?_map, h.level]
  rfl

theorem Inner.keep {number : Nat} {attempt : Attempt} (h : Inner s register number attempt)
    (hgrow : s.EmbedsIn t) {register' : List (Nat × Attempt)}
    (hregister : ∀ entry, entry.1 < s.dicts.size → (entry ∈ register' ↔ entry ∈ register)) :
    Inner t register' number attempt := by
  obtain ⟨parent, numbers, hentry, hnumber, hreachable⟩ := h.listed
  have hparent : parent < s.dicts.size := by
    by_contra hge
    simp [State.entries_of_size_le (Nat.le_of_not_lt hge)] at hentry
  obtain ⟨numbers', hinitial, hentry'⟩ := hgrow.keepsPlaces.element hentry
  refine ⟨parent, numbers', hentry', hinitial.subset hnumber, hreachable.trans ?_⟩
  apply and_congr_right'
  -- The list is that of a dictionary that was there, so the new attempt is not its host.
  constructor
  · rintro ⟨host, hhost, rfl, hreached⟩
    exact ⟨host, (hregister host hparent).mpr hhost, rfl, hreached⟩
  · rintro ⟨host, hhost, rfl, hreached⟩
    exact ⟨host, (hregister host hparent).mp hhost, rfl, hreached⟩

/-- The paths of the dictionaries of a state are those of a larger one. -/
theorem Draws.paths_eq {draft draft' : Draft} (hdraws : Draws path s draft)
    (hdraws' : Draws path' t draft') (hgrow : s.EmbedsIn t) {number : Nat}
    (hnumber : number < s.dicts.size) : path' number = path number :=
  hdraws.addressed.path_eq hdraws.owned hdraws'.addressed hgrow.keepsPlaces hnumber

/-- A change that begins no step leaves the register as it is. -/
theorem Registers.keep {lists : String → Prop} (h : Registers lists path s before register)
    (hgrow : s.EmbedsIn t) (hpath : ∀ number < s.dicts.size, path' number = path number)
    {line : String} (hfast : (t.fastSteps : Int) = s.fastSteps + regionsOf [line])
    (hsteps : t.steps = s.steps)
    (hframes : ∀ frame ∈ t.frames, frame ∈ s.frames ∨ frame.MarkedBy register)
    (hlisted : ∀ {parent : Nat} {key : String} {numbers : List Nat} {number : Nat},
      (key, Slot.list numbers) ∈ t.entries parent → number ∈ numbers →
        (∃ old, (key, Slot.list old) ∈ s.entries parent ∧ number ∈ old) ∨ lists key) :
    Registers lists path' t (before ++ [line]) register where
  fastSteps_eq := by rw [hfast, regionsOf_append, h.fastSteps_eq]
  registered := by
    intro entry hentry
    have hold := h.registered entry hentry
    exact hold.keep hgrow (hpath entry.1 hold.lt) [line]
  nodup_numbers := h.nodup_numbers
  nodup_lines := h.nodup_lines
  steps_eq := by rw [hsteps, h.steps_eq]
  outermost := h.outermost
  inner := by
    intro entry hentry hinner
    exact (h.inner entry hentry hinner).keep hgrow fun _ _ => Iff.rfl
  frames := by
    intro frame hframe
    rcases hframes frame hframe with hold | hmarked
    · exact h.frames frame hold
    · exact hmarked
  listed := by
    intro parent key numbers number hentry hnumber
    rcases hlisted hentry hnumber with ⟨old, hold, hmem⟩ | hlists
    · exact h.listed hold hmem
    · exact Or.inr hlists

/-! ## Records -/

/-- The open regions after a record, as its line says. -/
theorem RecordStep.regions {number : Nat} {record : Record} (hstep : RecordStep number record s t)
    {line : String} {header : Header} (hheader : Header.read? line = some header)
    (hlabel : record.label = header.label) :
    (t.fastSteps : Int) = s.fastSteps + regionsOf [line] := by
  have hadd := hstep.fastSteps_add
  rw [hlabel] at hadd
  rw [regionsOf_record hheader]
  split_ifs at hadd ⊢ <;> omega

/-- An attempt that a dictionary holds stands in a list of that one, and it is within a section. -/
theorem Registers.held {lists : String → Prop} (h : Registers lists path s before register)
    (howned : Owned s) {entry : Nat × Attempt} (hentry : entry ∈ register) {parent : Nat}
    {key : String} {slot : Slot} (hslot : (key, slot) ∈ s.entries parent)
    (hnumber : entry.1 ∈ slot.numbers) :
    (∃ numbers, slot = .list numbers) ∧ key = entry.2.listKey ∧
      (entry.2.reachable = true ↔ entry.2.level ≠ 0 ∧
        ∃ host ∈ register, host.1 = parent ∧ host.2.reachable = true) := by
  have hheld : entry.1 ∈ numbersOf (s.entries parent) := heldBy_iff.mpr ⟨_, hslot, hnumber⟩
  cases houtermost : entry.2.outermost with
  | true =>
      -- A top-level step is held by no dictionary.
      have hstep : entry.1 ∈ s.steps.toList := by
        rw [h.steps_eq]
        exact List.mem_map_of_mem (List.mem_filter.mpr ⟨hentry, houtermost⟩)
      exact absurd hheld (howned.not_mem_numbersOf_of_mem_steps hstep parent)
  | false =>
      obtain ⟨other, numbers, hlist, hmem, hreachable⟩ := (h.inner entry hentry houtermost).listed
      have hother : entry.1 ∈ numbersOf (s.entries other) := heldBy_iff.mpr ⟨_, hlist, hmem⟩
      have hparent : other = parent := howned.holder_unique hother hheld
      subst hparent
      have heq := howned.entry_unique hslot hlist hnumber hmem
      cases heq
      exact ⟨⟨numbers, rfl⟩, rfl, hreachable⟩

theorem Registers.not_mem_of_dict {lists : String → Prop}
    (h : Registers lists path s before register) (howned : Owned s) {parent number : Nat}
    {key : String} (hslot : (key, Slot.dict number) ∈ s.entries parent) :
    number ∉ register.map Prod.fst := by
  intro hmem
  obtain ⟨entry, hentry, rfl⟩ := List.mem_map.mp hmem
  obtain ⟨⟨numbers, hlist⟩, -⟩ := h.held howned hentry hslot (by simp)
  cases hlist

theorem Registers.not_mem_of_size_le {lists : String → Prop}
    (h : Registers lists path s before register) {number : Nat} (hnumber : s.dicts.size ≤ number) :
    number ∉ register.map Prod.fst := by
  intro hmem
  obtain ⟨entry, hentry, rfl⟩ := List.mem_map.mp hmem
  have hlt := (h.registered entry hentry).lt
  omega

/-- A section that is no step leaves the top-level steps alone, and is that of no attempt. -/
theorem Registers.entered {lists : String → Prop} (h : Registers lists path s before register)
    (howned : Owned s) {number : Nat} {opened : Section} (hopened : opened ≠ .step)
    (henter : Transition number s (.enter opened) t) :
    t.steps = s.steps ∧ ∀ frame ∈ t.frames, frame ∈ s.frames ∨ frame.MarkedBy register := by
  cases henter with
  | enterNew hfree =>
      constructor
      · cases opened with
        | plain name | entry list => rfl
        | step => exact absurd rfl hopened
      · intro frame hframe
        rcases List.mem_cons.mp hframe with rfl | hold
        · exact Or.inr (Or.inr ⟨hopened, h.not_mem_of_size_le (Nat.le_refl _)⟩)
        · rw [State.frames_addAt] at hold
          exact Or.inl hold
  | enterAgain hheld =>
      refine ⟨rfl, ?_⟩
      intro frame hframe
      rcases List.mem_cons.mp hframe with rfl | hold
      · obtain ⟨parent, key, -, hslot⟩ := State.value?_of_held hheld
        have hdict := h.not_mem_of_dict howned (Entries.mem_of_value? hslot)
        exact Or.inr (Or.inr ⟨hopened, hdict⟩)
      · exact Or.inl hold

/-- A record that begins no step leaves the register as it is. -/
theorem Registers.other {lists : String → Prop} (h : Registers lists path s before register)
    (howned : Owned s) {number : Nat} {record : Record} (hstep : RecordStep number record s t)
    (hgrow : s.EmbedsIn t) (hpath : ∀ number < s.dicts.size, path' number = path number)
    {line : String} {header : Header} (hheader : Header.read? line = some header)
    (hlabel : record.label = header.label) (hmarker : Marker.ofLabel record.label ≠ .opens .step)
    (hlists : ∀ list, Marker.ofLabel record.label = .opens (.entry list) → lists list) :
    Registers lists path' t (before ++ [line]) register := by
  have hfast := hstep.regions hheader hlabel
  -- Fields that are set change neither the top-level steps nor lists, and they open nothing.
  have hfields : ∀ {filled : State}, run number (Move.sets record.payload) s = .reached filled →
      t.steps = filled.steps → t.dicts = filled.dicts → (∀ frame ∈ t.frames, frame ∈ filled.frames) →
        Registers lists path' t (before ++ [line]) register := by
    intro filled hsets hsteps hdicts hframes
    obtain ⟨hframes', hsteps', -⟩ := unchanged_of_run_sets hsets
    apply h.keep hgrow hpath hfast (hsteps.trans hsteps')
    · intro frame hframe
      exact Or.inl (hframes' ▸ hframes frame hframe)
    · intro parent key numbers other hentry hnumber
      unfold State.entries at hentry
      rw [hdicts] at hentry
      exact Or.inl ⟨numbers, lists_sets howned hsets hentry, hnumber⟩
  cases hstep with
  | remark _ hsets => exact hfields hsets rfl rfl fun _ hframe => hframe
  | closes _ _ _ hsets hleave =>
      subst hleave
      exact hfields hsets rfl rfl fun _ hframe => List.mem_of_mem_tail hframe
  | beginsFastSteps _ hsets hfast' | endsFastSteps _ _ hsets hfast' =>
      subst hfast'
      exact hfields hsets rfl rfl fun _ hframe => hframe
  | @opens opened entered hopens henter hsets =>
      obtain ⟨hframes, hsteps, -⟩ := unchanged_of_run_sets hsets
      have hne : opened ≠ .step := by
        rintro rfl
        exact hmarker hopens
      obtain ⟨hsteps', hmarked⟩ := h.entered howned hne henter
      apply h.keep hgrow hpath hfast (hsteps.trans hsteps')
      · intro frame hframe
        exact hmarked frame (hframes ▸ hframe)
      · intro parent key numbers number hentry hnumber
        have hentered := lists_sets (howned.step henter) hsets hentry
        rcases henter.listed howned hentered hnumber with hold | ⟨-, other, heq, hplace⟩
        · exact Or.inl hold
        · cases heq
          right
          -- Of the sections that are no steps, only entries stand in lists.
          cases opened with
          | plain name => cases hplace
          | entry list =>
              cases hplace
              exact hlists _ hopens
          | step => exact absurd rfl hne

/-! ## Records that begin steps -/

/-- Where a step stands that begins within a section. -/
theorem State.place_step (hframes : s.frames ≠ []) :
    s.place .step =
      if s.fastSteps = 0 then .element s.current Step.evolveKey
      else .element s.host (Step.timeLevelKey s.fastSteps) := by
  unfold State.place
  rw [if_neg hframes]

/-- Everything that a record does that begins a step. -/
theorem RecordStep.begins {number : Nat} {record : Record} (hstep : RecordStep number record s t)
    (hmarker : Marker.ofLabel record.label = .opens .step) (h : Owned s) :
    (s.addAt (s.newEntries .step) (s.place .step)).EmbedsIn t ∧
      t.steps = (s.addAt (s.newEntries .step) (s.place .step)).steps ∧
      (∃ depth, t.frames = ⟨s.dicts.size, .step, depth, number⟩ :: s.frames) ∧
      ∀ {parent child : Nat} {key : String} {numbers : List Nat},
        (key, Slot.list numbers) ∈ t.entries parent → child ∈ numbers →
          (∃ old, (key, Slot.list old) ∈ s.entries parent ∧ child ∈ old) ∨ child = s.dicts.size := by
  cases hstep with
  | @opens opened entered hopens henter hsets =>
      rw [hmarker] at hopens
      cases hopens
      obtain ⟨hframes, hsteps, -⟩ := unchanged_of_run_sets hsets
      have howned := h.step henter
      have hlisted {parent child : Nat} {key : String} {numbers : List Nat}
          (hentry : (key, Slot.list numbers) ∈ entered.entries parent) (hchild : child ∈ numbers) :=
        henter.listed h hentry hchild
      obtain ⟨-, rfl⟩ := enterNew_of_step henter
      have hopen : (s.addAt (s.newEntries .step) (s.place .step)).EmbedsIn
          ((s.addAt (s.newEntries .step) (s.place .step)).enter number .step s.dicts.size) :=
        .of_eq rfl rfl
      refine ⟨hopen.trans (embedsIn_of_run howned hsets).2, hsteps, ⟨s.depth + 1, ?_⟩, ?_⟩
      · rw [hframes]
        simp [State.enter]
      · intro parent child key numbers hentry hchild
        rcases hlisted (lists_sets howned hsets hentry) hchild with hold | ⟨hnew, -⟩
        · exact Or.inl hold
        · exact Or.inr hnew
  | remark hother | closes hother | beginsFastSteps hother | endsFastSteps hother =>
      rw [hmarker] at hother
      cases hother

/-- The attempt of a record that begins a step is one of the lines up to that one. -/
theorem Draws.isOf {draft : Draft} (hdraws : Draws path s draft)
    (hfast : (s.fastSteps : Int) = regionsOf before) {line : String} {header : Header}
    (hheader : Header.read? line = some header) (hbegins : header.label = "begin-step-attempt")
    (done : List Attempt) (at' : Path) :
    (draft.attempt (before.length + 1) done at').IsOf (before ++ [line]) where
  line_pos := Nat.succ_pos _
  begins := by
    refine ⟨line, header, ?_, hheader, hbegins⟩
    simp [Draft.attempt]
  level_eq := by
    show (draft.fastSteps : Int) = _
    rw [hdraws.fastSteps_eq, hfast]
    simp [Draft.attempt]

/-- A section is open in the draft just if one is open in the state. -/
theorem Draws.isEmpty_openings {draft : Draft} (hdraws : Draws path s draft) :
    draft.openings.isEmpty = true ↔ s.frames = [] := by
  rw [hdraws.openings_eq]
  simp

/-- An attempt within a section is reachable just if it is a fast step whose host is reachable. -/
theorem Registers.reaches_iff {lists : String → Prop} (h : Registers lists path s before register)
    {draft : Draft} (hdraws : Draws path s draft) (hframes : s.frames ≠ []) :
    draft.reaches (register.map Prod.snd) = true ↔ s.fastSteps ≠ 0 ∧
      ∃ host ∈ register, host.1 = s.host ∧ host.2.reachable = true := by
  have hempty : draft.openings.isEmpty = false := by
    rw [Bool.eq_false_iff, Ne, hdraws.isEmpty_openings]
    exact hframes
  unfold Draft.reaches
  rw [hempty, Bool.false_or, Bool.and_eq_true, decide_eq_true_iff, hdraws.fastSteps_eq,
    hdraws.openings_eq, Draft.find?_step_map Frame.opened fun _ => rfl]
  apply and_congr_right'
  cases hfind : s.frames.find? (·.opened = .step) with
  | none =>
      -- The host is then the innermost open section, which is no step.
      simp only [Option.map_none, Option.any_none, Bool.false_eq_true, false_iff]
      rintro ⟨host, hhost, hdict, -⟩
      obtain ⟨frame, outer, hstack⟩ := List.exists_cons_of_ne_nil hframes
      have hcurrent : s.host = frame.dict := by
        unfold State.host State.current
        rw [hfind, hstack]
      have hmem : frame ∈ s.frames := by
        rw [hstack]
        exact List.mem_cons_self
      rcases h.frames frame hmem with ⟨hstep, -⟩ | ⟨-, hnot⟩
      · exact absurd hstep (by simpa using List.find?_eq_none.mp hfind frame hmem)
      · apply hnot
        rw [← hcurrent, ← hdict]
        exact List.mem_map_of_mem hhost
  | some frame =>
      have hdict : s.host = frame.dict := by
        unfold State.host
        rw [hfind]
      have hstep : frame.opened = .step := by simpa using List.find?_some hfind
      rcases h.frames frame (List.mem_of_find?_eq_some hfind) with ⟨-, own, hown, hnumber, hline⟩ | hnot
      · -- The line of the host and its dictionary tell the same attempt.
        have hlines : ∀ other ∈ register, other.2.line = own.2.line → other = own :=
          fun other hother heq => List.inj_on_of_nodup_map h.nodup_lines hother hown heq
        have hnumbers : ∀ other ∈ register, other.1 = own.1 → other = own :=
          fun other hother heq => List.inj_on_of_nodup_map h.nodup_numbers hother hown heq
        simp only [Option.map_some, Option.any_some, List.any_map, List.any_eq_true,
          Function.comp_apply, Bool.and_eq_true, decide_eq_true_iff, ← hline, hdict, ← hnumber]
        constructor
        · rintro ⟨host, hhost, heq, hreached⟩
          exact ⟨host, hhost, congrArg Prod.fst (hlines host hhost heq), hreached⟩
        · rintro ⟨host, hhost, heq, hreached⟩
          have hsame := hnumbers host hhost heq
          exact ⟨host, hhost, by rw [hsame], hreached⟩
      · exact absurd hstep hnot.1

/-- The new dictionary of a step within a section stands in a list of its host, or of the current
dictionary outside of fast steps. -/
theorem State.mem_addAt_step (h : Owned s) (hframes : s.frames ≠ []) {attempt : Attempt}
    (hlevel : attempt.level = s.fastSteps) :
    ∃ parent numbers, (parent = if s.fastSteps = 0 then s.current else s.host) ∧
      (attempt.listKey, Slot.list numbers) ∈
        (s.addAt (s.newEntries .step) (s.place .step)).entries parent ∧ s.dicts.size ∈ numbers := by
  have hput : ∀ parent key, s.place .step = .element parent key →
      ∃ numbers, (key, Slot.list numbers) ∈
        (s.addAt (s.newEntries .step) (s.place .step)).entries parent ∧ s.dicts.size ∈ numbers := by
    intro parent key hplace
    have hparent : parent < s.dicts.size := h.parent_lt (by rw [hplace]; rfl)
    refine ⟨s.elements parent key ++ [s.dicts.size], ?_, by simp⟩
    rw [hplace, State.addAt, (State.entries_add_set _ hparent key _).1]
    apply Entries.mem_of_value?
    rw [Entries.value?_put, if_pos rfl]
  have hplace := State.place_step hframes
  unfold Attempt.listKey
  rw [hlevel]
  split at hplace <;> rename_i hzero
  · obtain ⟨numbers, hentry, hmem⟩ := hput _ _ hplace
    exact ⟨s.current, numbers, by rw [if_pos hzero], by rwa [if_pos hzero], hmem⟩
  · obtain ⟨numbers, hentry, hmem⟩ := hput _ _ hplace
    exact ⟨s.host, numbers, by rw [if_neg hzero], by rwa [if_neg hzero], hmem⟩

/-- What a record does that begins a step, and what its attempt is. -/
structure Attempted (path : Nat → Path) (s t : State) (lines : List String)
    (register : List (Nat × Attempt)) (attempt : Attempt) : Prop where
  grow : s.EmbedsIn t
  added : (s.addAt (s.newEntries .step) (s.place .step)).EmbedsIn t
  steps_eq : t.steps = (s.addAt (s.newEntries .step) (s.place .step)).steps
  frames_eq : ∃ depth, t.frames = ⟨s.dicts.size, .step, depth, attempt.line⟩ :: s.frames
  listed : ∀ {parent child : Nat} {key : String} {numbers : List Nat},
    (key, Slot.list numbers) ∈ t.entries parent → child ∈ numbers →
      (∃ old, (key, Slot.list old) ∈ s.entries parent ∧ child ∈ old) ∨ child = s.dicts.size
  registered : Registered path t lines s.dicts.size attempt
  line_eq : attempt.line = lines.length
  level_eq : attempt.level = s.fastSteps
  outermost_iff : attempt.outermost = true ↔ s.frames = []
  reachable_of_outermost : attempt.outermost = true → attempt.reachable = true
  reachable_iff : s.frames ≠ [] → (attempt.reachable = true ↔ s.fastSteps ≠ 0 ∧
    ∃ host ∈ register, host.1 = s.host ∧ host.2.reachable = true)

/-- A record that begins a step makes an attempt. -/
theorem Registers.attempted {lists : String → Prop} (h : Registers lists path s before register)
    {draft draft' : Draft} (hdraws : Draws path s draft) (hdraws' : Draws path' t draft')
    {record : Record} (hstep : RecordStep (before.length + 1) record s t) (hgrow : s.EmbedsIn t)
    {line : String} {header : Header} (hheader : Header.read? line = some header)
    (hlabel : record.label = header.label) (hbegins : record.label = "begin-step-attempt") :
    Attempted path' s t (before ++ [line]) register
      (draft.attempt (before.length + 1) (register.map Prod.snd) draft'.top) := by
  have howned := hdraws.owned
  obtain ⟨hadded, hsteps, hframes, hlisted⟩ :=
    hstep.begins (Marker.ofLabel_eq_opens_step.mpr hbegins) howned
  have hlevel : ((s.addAt (s.newEntries .step) (s.place .step)).entries s.dicts.size).head? =
      some (Step.levelKey, .value (.integer draft.fastSteps)) := by
    rw [(entries_addAt _ fun parent hparent => howned.parent_lt hparent).1, hdraws.fastSteps_eq]
    rfl
  have hpath : draft'.top = path' s.dicts.size := by
    obtain ⟨depth, hstack⟩ := hframes
    rw [hdraws'.top_eq]
    unfold State.current
    rw [hstack]
  refine ⟨hgrow, hadded, hsteps, hframes, hlisted, ?_, by simp [Draft.attempt], hdraws.fastSteps_eq,
    hdraws.isEmpty_openings, ?_, h.reaches_iff hdraws⟩
  · have hfirst := hadded.head? hlevel
    have hisOf := hdraws.isOf h.fastSteps_eq hheader (hlabel ▸ hbegins) (register.map Prod.snd)
      draft'.top
    exact ⟨State.lt_size_of_head? hfirst, hisOf, hpath, hfirst⟩
  · intro hempty
    have hopenings : draft.openings.isEmpty = true := hempty
    simp [Draft.attempt, Draft.reaches, hopenings]

namespace Attempted

variable {lines : List String} {attempt : Attempt} {lists : String → Prop}

/-- The new dictionary has no other attempt, so the attempts of the others are those of before. -/
theorem mem_iff {entry : Nat × Attempt} (hentry : entry.1 < s.dicts.size) :
    entry ∈ register ++ [(s.dicts.size, attempt)] ↔ entry ∈ register := by
  rw [List.mem_append, List.mem_singleton]
  refine or_iff_left ?_
  rintro rfl
  exact absurd hentry (Nat.lt_irrefl _)

/-- A step is a top-level step just if no section is open. -/
theorem steps (ha : Attempted path s t lines register attempt)
    (hsteps : s.steps.toList = (register.filter (·.2.outermost)).map Prod.fst) :
    t.steps.toList =
      ((register ++ [(s.dicts.size, attempt)]).filter (·.2.outermost)).map Prod.fst := by
  rw [ha.steps_eq, List.filter_append, List.map_append, ← hsteps]
  by_cases hopen : s.frames = []
  · have hplace : s.place .step = .topLevel := by simp [State.place, hopen]
    rw [hplace]
    simp [State.addAt, ha.outermost_iff.mpr hopen]
  · have hinner : attempt.outermost = false := by
      rw [Bool.eq_false_iff, Ne, ha.outermost_iff]
      exact hopen
    rw [State.place_step hopen]
    split <;> simp [State.addAt, State.set, State.add, hinner]

/-- A step within a section stands in a list of its host. -/
theorem inner (ha : Attempted path s t lines register attempt) (howned : Owned s)
    (hinner : attempt.outermost = false) :
    Inner t (register ++ [(s.dicts.size, attempt)]) s.dicts.size attempt := by
  have hopen : s.frames ≠ [] := by
    rw [Ne, ← ha.outermost_iff, hinner]
    simp
  obtain ⟨parent, numbers, hparent, hentry, hnumber⟩ :=
    State.mem_addAt_step howned hopen ha.level_eq
  obtain ⟨numbers', hinitial, hlist⟩ := ha.added.keepsPlaces.element hentry
  refine ⟨parent, numbers', hlist, hinitial.subset hnumber, ?_⟩
  rw [ha.reachable_iff hopen, ha.level_eq]
  apply and_congr_right
  intro hne
  rw [if_neg hne] at hparent
  subst hparent
  constructor
  · rintro ⟨host, hhost, heq, hreached⟩
    exact ⟨host, List.mem_append_left _ hhost, heq, hreached⟩
  · rintro ⟨host, hhost, heq, hreached⟩
    exact ⟨host, (mem_iff (heq ▸ howned.host_lt)).mp hhost, heq, hreached⟩

/-- The new section is that of the attempt, and the others are what they were. -/
theorem frames (ha : Attempted path s t lines register attempt) (howned : Owned s)
    (hframes : ∀ frame ∈ s.frames, frame.MarkedBy register) :
    ∀ frame ∈ t.frames, frame.MarkedBy (register ++ [(s.dicts.size, attempt)]) := by
  obtain ⟨depth, hstack⟩ := ha.frames_eq
  intro frame hframe
  rw [hstack] at hframe
  rcases List.mem_cons.mp hframe with rfl | hold
  · exact Or.inl ⟨rfl, _, List.mem_append_right _ List.mem_cons_self, rfl, rfl⟩
  · rcases hframes frame hold with ⟨hopened, entry, hentry, heq⟩ | ⟨hopened, hnot⟩
    · exact Or.inl ⟨hopened, entry, List.mem_append_left _ hentry, heq⟩
    · refine Or.inr ⟨hopened, ?_⟩
      have hlt := howned.opened_lt frame hold
      rw [List.map_append, List.mem_append, not_or]
      exact ⟨hnot, by simpa using Nat.ne_of_lt hlt⟩

end Attempted

/-- A record that begins a step adds its attempt to the register. -/
theorem Registers.begin {lists : String → Prop} (h : Registers lists path s before register)
    (howned : Owned s) {line : String} {attempt : Attempt}
    (ha : Attempted path' s t (before ++ [line]) register attempt)
    (hpath : ∀ number < s.dicts.size, path' number = path number)
    (hfast : (t.fastSteps : Int) = s.fastSteps + regionsOf [line]) :
    Registers lists path' t (before ++ [line]) (register ++ [(s.dicts.size, attempt)]) where
  fastSteps_eq := by rw [hfast, regionsOf_append, h.fastSteps_eq]
  registered := by
    intro entry hentry
    rcases List.mem_append.mp hentry with hold | hlast
    · have hreg := h.registered entry hold
      exact hreg.keep ha.grow (hpath entry.1 hreg.lt) [line]
    · rw [List.mem_singleton.mp hlast]
      exact ha.registered
  nodup_numbers := by
    rw [List.map_append, List.map_singleton, ← List.concat_eq_append]
    exact h.nodup_numbers.concat (h.not_mem_of_size_le (Nat.le_refl _))
  nodup_lines := by
    rw [List.map_append, List.map_singleton, ← List.concat_eq_append]
    apply h.nodup_lines.concat
    -- The attempts so far are on earlier lines.
    intro hmem
    obtain ⟨entry, hentry, heq⟩ := List.mem_map.mp hmem
    have hsame : entry.2.line = attempt.line := heq
    have hle := (h.registered entry hentry).isOf.line_le
    have hline := ha.line_eq
    rw [List.length_append, List.length_singleton] at hline
    omega
  steps_eq := ha.steps h.steps_eq
  outermost := by
    intro entry hentry
    rcases List.mem_append.mp hentry with hold | hlast
    · exact h.outermost entry hold
    · rw [List.mem_singleton.mp hlast]
      exact ha.reachable_of_outermost
  inner := by
    intro entry hentry hinner
    rcases List.mem_append.mp hentry with hold | hlast
    · exact (h.inner entry hold hinner).keep ha.grow fun _ hlt => Attempted.mem_iff hlt
    · rw [List.mem_singleton.mp hlast] at hinner ⊢
      exact ha.inner howned hinner
  frames := ha.frames howned h.frames
  listed := by
    intro parent key numbers number hentry hnumber
    rw [List.map_append, List.mem_append]
    rcases ha.listed hentry hnumber with ⟨old, hold, hmem⟩ | rfl
    · exact (h.listed hold hmem).imp_left Or.inl
    · exact Or.inl (Or.inr List.mem_cons_self)

/-! ## Logs -/

/-- A record leads from a register to the next one. -/
theorem Registers.record {lists : String → Prop} (h : Registers lists path s before register)
    {draft draft' : Draft} (hdraws : Draws path s draft) (hdraws' : Draws path' t draft')
    {record : Record} (hrun : run (before.length + 1) (Move.ofRecord record) s = .reached t)
    {line : String} {header : Header} (hheader : Header.read? line = some header)
    (hlabel : record.label = header.label)
    (hlists : ∀ list, Marker.ofLabel record.label = .opens (.entry list) → lists list) :
    ∃ register', Registers lists path' t (before ++ [line]) register' ∧
      register'.map Prod.snd =
        draft.attemptsWith (before.length + 1) record (register.map Prod.snd) draft' := by
  have howned := hdraws.owned
  have hstep : RecordStep (before.length + 1) record s t := .of_run hrun
  have hgrow : s.EmbedsIn t := (embedsIn_of_run howned hrun).2
  have hpath : ∀ number < s.dicts.size, path' number = path number :=
    fun number hnumber => hdraws.paths_eq hdraws' hgrow hnumber
  unfold Draft.attemptsWith
  by_cases hbegins : record.label = "begin-step-attempt"
  · rw [if_pos hbegins]
    have ha := h.attempted hdraws hdraws' hstep hgrow hheader hlabel hbegins
    refine ⟨_, h.begin howned ha hpath (hstep.regions hheader hlabel), ?_⟩
    rw [List.map_append, List.map_singleton]
  · rw [if_neg hbegins]
    refine ⟨register, h.other howned hstep hgrow hpath hheader hlabel ?_ hlists, rfl⟩
    rw [Ne, Marker.ofLabel_eq_opens_step]
    exact hbegins

/-- Commentary leaves the register as it is. -/
theorem Registers.commentary {lists : String → Prop} (h : Registers lists path s before register)
    {line : String} (hheader : Header.read? line = none) :
    Registers lists path s (before ++ [line]) register := by
  have hfast : (s.fastSteps : Int) = s.fastSteps + regionsOf [line] := by
    rw [regionsOf_commentary hheader, add_zero]
  apply h.keep (.refl s) (fun _ _ => rfl) hfast rfl (fun _ hframe => Or.inl hframe)
  intro parent key numbers number hentry hnumber
  exact Or.inl ⟨numbers, hentry, hnumber⟩

/-- What commentary and every record of some kind preserve, it holds of the state that the lines of a
log lead to and of their attempts. -/
theorem Draws.lines_invariant {Q : (Nat → Path) → State → List String → List Attempt → Prop}
    {kind : Record → Prop}
    (hcommentary : ∀ {path s before done line}, Q path s before done → Header.read? line = none →
      Q path s (before ++ [line]) done)
    (hrecord : ∀ {path path' s t before done line header} {draft draft' : Draft} {record : Record},
      Q path s before done → Draws path s draft → Draws path' t draft' → kind record →
      run (before.length + 1) (Move.ofRecord record) s = .reached t →
      Header.read? line = some header → record.label = header.label →
      Q path' t (before ++ [line]) (draft.attemptsWith (before.length + 1) record done draft'))
    (before : List String) {done : List Attempt} {draft : Draft} (h : Q path s before done)
    (hdraws : Draws path s draft) {indicator : String} {lines : List String}
    (hrun : runLines indicator (before.length + 1) lines s = .reached t)
    (hkind : ∀ record ∈ Record.readAll indicator lines, kind record) :
    ∃ path', Addressed t path' ∧
      Q path' t (before ++ lines) (draft.attempts indicator (before.length + 1) lines done) := by
  induction lines generalizing path s draft before done with
  | nil =>
      cases hrun
      exact ⟨path, hdraws.addressed, by rwa [List.append_nil]⟩
  | cons line following ih =>
      have hlength : before.length + 1 + 1 = (before ++ [line]).length + 1 := by simp
      have happend : before ++ line :: following = before ++ [line] ++ following := by simp
      rw [happend]
      unfold Draft.attempts
      unfold Record.readAll at hkind
      unfold runLines Move.ofLine at hrun
      cases hread : Record.read? indicator line following with
      | none =>
          rw [hread] at hrun hkind
          have hheader : Header.read? line = none := Option.map_eq_none_iff.mp hread
          rw [hlength] at hrun ⊢
          exact ih _ (hcommentary h hheader) hdraws hrun hkind
      | some record =>
          rw [hread] at hrun hkind
          obtain ⟨header, hheader, hlabel⟩ := Option.map_eq_some_iff.mp hread
          have hdrawn := hdraws.record (before.length + 1) record
          cases hmoves : run (before.length + 1) (Move.ofRecord record) s with
          | refused error last =>
              simp only [hmoves] at hrun
              cases hrun
          | reached middle =>
              simp only [hmoves] at hrun
              rw [hmoves] at hdrawn
              obtain ⟨path', draft', hnext, hdraws'⟩ := hdrawn
              have hlast := hrecord h hdraws hdraws' (hkind record (by simp)) hmoves hheader
                (by rw [← hlabel])
              simp only [hnext]
              rw [hlength] at hrun ⊢
              apply ih _ hlast hdraws' hrun
              intro other hother
              exact hkind other (List.mem_append_right _ hother)

/-- The lines of a log lead from a register to that of all their attempts. -/
theorem Registers.lines {lists : String → Prop} (h : Registers lists path s before register)
    {draft : Draft} (hdraws : Draws path s draft) {indicator : String} {lines : List String}
    (hrun : runLines indicator (before.length + 1) lines s = .reached t)
    (hlists : ∀ record ∈ Record.readAll indicator lines, ∀ list,
      Marker.ofLabel record.label = .opens (.entry list) → lists list) :
    ∃ path' register', Addressed t path' ∧ Registers lists path' t (before ++ lines) register' ∧
      register'.map Prod.snd =
        draft.attempts indicator (before.length + 1) lines (register.map Prod.snd) := by
  have hlines := Draws.lines_invariant
    (Q := fun path s before done =>
      ∃ register, Registers lists path s before register ∧ register.map Prod.snd = done)
    (by
      rintro path s before done line ⟨register, hregister, rfl⟩ hheader
      exact ⟨register, hregister.commentary hheader, rfl⟩)
    (by
      rintro path path' s t before done line header draft draft' record ⟨register, hregister, rfl⟩
        hdraws hdraws' hkind hmoves hheader hlabel
      exact hregister.record hdraws hdraws' hmoves hheader hlabel hkind)
    before ⟨register, h, rfl⟩ hdraws hrun hlists
  obtain ⟨path', haddressed, register', hregister', hattempts⟩ := hlines
  exact ⟨path', register', haddressed, hregister', hattempts⟩

/-- A log that has a document has a register of its attempts. -/
theorem Registers.ofLines (lists : String → Prop) {options : Options} {lines : List String}
    {document : Document} (h : Document.ofLines options lines = .ok document)
    (hlists : ∀ record ∈ Record.readAll options.arrayIndicator lines, ∀ list,
      Marker.ofLabel record.label = .opens (.entry list) → lists list) :
    ∃ s path register, runLines options.arrayIndicator 1 lines .initial = .reached s ∧
      document = s.document ∧ Addressed s path ∧ Registers lists path s lines register ∧
        register.map Prod.snd = Document.attempts options lines := by
  obtain ⟨s, hrun, hdocument⟩ := reached_of_ofLines h
  obtain ⟨path, register, haddressed, hregister, hattempts⟩ :=
    (Registers.initial lists).lines Draws.initial hrun hlists
  exact ⟨s, path, register, hrun, hdocument, haddressed, hregister, hattempts⟩

end Builder

end SolverLog
