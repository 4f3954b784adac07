import SolverLog.Proofs.Ownership

/-!
# The document of a store

Putting the dictionaries of a store together takes each one out once, when its holder is completed.
Under ownership every dictionary is there when it is taken, so the document is what the numbers
stand for (`State.dictOf`), with nothing left out.

* `Yields` — an action takes certain dictionaries and gives a result built from them.
* `State.document_eq` — the document of a state, in terms of `State.dictOf`.
-/

namespace SolverLog.Builder

/-- What a slot stands for, given what the numbers stand for. -/
def Slot.standsFor (find : Nat → Dict) : Slot → Node
  | value held => .value held
  | dict number => .dict (find number)
  | list numbers => .list (numbers.map find)

theorem Slot.standsFor_congr {find find' : Nat → Dict} {slot : Slot}
    (h : ∀ number ∈ slot.numbers, find number = find' number) :
    slot.standsFor find = slot.standsFor find' := by
  cases slot with
  | value held => rfl
  | dict number => simp [standsFor, h number (by simp)]
  | list numbers =>
      simp only [standsFor]
      congr 1
      exact List.map_congr_left h

/-- The dictionary of that number, together with all that it holds. -/
def State.dictOf (s : State) (number : Nat) : Dict :=
  (s.entries number).map fun entry =>
    (entry.1, entry.2.standsFor fun child =>
      if number < child ∧ child < s.dicts.size then s.dictOf child else [])
termination_by s.dicts.size - number

theorem Owned.dictOf_eq {s : State} (h : Owned s) (number : Nat) :
    s.dictOf number = (s.entries number).map fun entry => (entry.1, entry.2.standsFor s.dictOf) := by
  rw [State.dictOf]
  apply List.map_congr_left
  intro entry hentry
  congr 1
  apply Slot.standsFor_congr
  intro child hchild
  rw [if_pos ⟨h.later number entry hentry child hchild, h.child_lt hentry hchild⟩]

/-! ## Taking dictionaries -/

section

variable {m : Type → Type} [Monad m]

/-- An action takes the dictionaries of those numbers, and gives the result if they are there. -/
def Yields {α : Type} (find : Nat → Dict) (action : StateT Completed m α) (numbers : List Nat)
    (result : α) : Prop :=
  ∀ completed : Completed,
    (∀ number ∈ numbers, completed[number]? = some (some (find number))) →
      ∃ rest : Completed, action.run completed = pure (result, rest) ∧ rest.size = completed.size ∧
        ∀ number, number ∉ numbers → rest[number]? = completed[number]?

/-- What a slot stands for, by a way of taking dictionaries. -/
def Slot.nodeBy (taking : Nat → StateT Completed m Dict) : Slot → StateT Completed m Node
  | value held => return .value held
  | dict number => return .dict (← taking number)
  | list numbers => return .list (← numbers.mapM taking)

/-- Completes the dictionary of that number, by a way of taking dictionaries. -/
def completeBy (taking : Nat → StateT Completed m Dict) (number : Nat) (entries : Entries Slot) :
    StateT Completed m Unit := do
  let dict ← entries.mapM fun (key, slot) => return (key, ← slot.nodeBy taking)
  modify (·.setIfInBounds number (some dict))

/-- Completes the dictionaries with numbers below a bound, by a way of taking dictionaries. -/
def completeBelowBy (taking : Nat → StateT Completed m Dict) (dicts : Array (Entries Slot)) :
    Nat → StateT Completed m Unit
  | 0 => return
  | number + 1 => do
    completeBy taking number (dicts.getD number [])
    completeBelowBy taking dicts number

/-- The document of a state, by a way of taking dictionaries. -/
def State.documentBy (taking : Nat → StateT Completed m Dict) (state : State) : m Document :=
  let assembly : StateT Completed m Document := do
    completeBelowBy taking state.dicts state.dicts.size
    let steps ← state.steps.toList.mapM taking
    let globals ← taking globalsNumber
    return { globals, steps }
  Prod.fst <$> assembly.run (Array.replicate state.dicts.size none)

end

theorem complete_eq_completeBy (number : Nat) (entries : Entries Slot) :
    complete number entries = completeBy take number entries := by
  have hnode (slot : Slot) : slot.node = slot.nodeBy take := by cases slot <;> rfl
  simp only [complete, completeBy, hnode]

theorem completeBelow_eq_completeBelowBy (dicts : Array (Entries Slot)) (bound : Nat) :
    completeBelow dicts bound = completeBelowBy take dicts bound := by
  induction bound with
  | zero => rfl
  | succ bound ih => simp only [completeBelow, completeBelowBy, complete_eq_completeBy, ih]

theorem State.document_eq_documentBy (s : State) : s.document = s.documentBy take := by
  simp only [document, documentBy, completeBelow_eq_completeBelowBy]
  rfl

namespace Yields

variable {α β γ : Type} {m : Type → Type} [Monad m] {find : Nat → Dict}

theorem pure (result : α) : Yields find (pure result : StateT Completed m α) [] result := by
  intro completed _
  exact ⟨completed, rfl, rfl, fun _ _ => rfl⟩

theorem take (number : Nat) : Yields find (take number) [number] (find number) := by
  intro completed hthere
  refine ⟨completed.setIfInBounds number none, ?_, by simp, ?_⟩
  · have hfind := hthere number (by simp)
    simp [Builder.take, modifyGet, MonadStateOf.modifyGet, StateT.modifyGet, StateT.run, hfind]
  · intro other hother
    have hne : number ≠ other := by
      rintro rfl
      simp at hother
    simp [hne]

variable [LawfulMonad m]

theorem bind {action : StateT Completed m α} {next : α → StateT Completed m β}
    {first second : List Nat} {a : α} {b : β} (hfirst : Yields find action first a)
    (hsecond : Yields find (next a) second b) (hdisjoint : first.Disjoint second) :
    Yields find (action >>= next) (first ++ second) b := by
  intro completed hthere
  obtain ⟨rest, hrun, hsize, hrest⟩ :=
    hfirst completed fun number hmem => hthere number (List.mem_append_left _ hmem)
  -- What the second action takes is still there, since the first one takes others.
  obtain ⟨last, hrun', hsize', hlast⟩ := hsecond rest (by
    intro number hmem
    rw [hrest number (hdisjoint.symm hmem)]
    exact hthere number (List.mem_append_right _ hmem))
  refine ⟨last, ?_, hsize'.trans hsize, ?_⟩
  · rw [StateT.run_bind, hrun, pure_bind]
    exact hrun'
  · intro number hmem
    rw [List.mem_append, not_or] at hmem
    rw [hlast number hmem.2, hrest number hmem.1]

theorem map {action : StateT Completed m α} {numbers : List Nat} {a : α}
    (h : Yields find action numbers a) (change : α → β) :
    Yields find (action >>= fun a => Pure.pure (change a)) numbers (change a) := by
  have hbind : Yields find (action >>= fun a => Pure.pure (change a)) (numbers ++ []) (change a) :=
    h.bind (pure (change a)) (List.disjoint_nil_right numbers)
  rwa [List.append_nil] at hbind

theorem mapM {items : List α} {action : α → StateT Completed m β} {taken : α → List Nat}
    {result : α → β} (hitems : ∀ item ∈ items, Yields find (action item) (taken item) (result item))
    (hnodup : (items.flatMap taken).Nodup) :
    Yields find (items.mapM action) (items.flatMap taken) (items.map result) := by
  induction items with
  | nil => exact pure []
  | cons item rest ih =>
      rw [List.flatMap_cons, List.nodup_append] at hnodup
      rcases hnodup with ⟨-, hrest, hne⟩
      -- No dictionary is taken for two items.
      have hdisjoint : (taken item).Disjoint (rest.flatMap taken) :=
        fun number hfirst hsecond => hne number hfirst number hsecond rfl
      rw [List.mapM_cons, List.flatMap_cons]
      refine (hitems item List.mem_cons_self).bind ?_ hdisjoint
      exact (ih (fun item hitem => hitems item (List.mem_cons_of_mem _ hitem)) hrest).map
        (result item :: ·)

variable {taking : Nat → StateT Completed m Dict}
  (htaking : ∀ number, Yields find (taking number) [number] (find number))
include htaking

/-- Taking a list of dictionaries. -/
theorem mapM_take {numbers : List Nat} (hnodup : numbers.Nodup) :
    Yields find (numbers.mapM taking) numbers (numbers.map find) := by
  have hflat : numbers.flatMap (fun number => [number]) = numbers := by simp
  have hmap : Yields find (numbers.mapM taking) (numbers.flatMap fun number => [number])
      (numbers.map find) := by
    apply mapM
    · intro number _
      exact htaking number
    · rw [hflat]
      exact hnodup
  rwa [hflat] at hmap

/-- Putting together what a slot stands for. -/
theorem node {slot : Slot} (hnodup : slot.numbers.Nodup) :
    Yields find (slot.nodeBy taking) slot.numbers (slot.standsFor find) := by
  cases slot with
  | value held => exact pure _
  | dict number => exact (htaking number).map Node.dict
  | list numbers => exact (mapM_take htaking hnodup).map Node.list

/-- Putting together the entries of a dictionary. -/
theorem entries {entries : Entries Slot} (hnodup : (numbersOf entries).Nodup) :
    Yields find (entries.mapM fun entry => do return (entry.1, ← entry.2.nodeBy taking))
      (numbersOf entries) (entries.map fun entry => (entry.1, entry.2.standsFor find)) := by
  refine mapM ?_ hnodup
  intro entry hentry
  exact (node htaking ((List.nodup_flatMap.mp hnodup).1 entry hentry)).map (Prod.mk entry.1)

end Yields

/-! ## Completing the store -/

/-- The dictionaries from a number on are complete, and there unless one of them holds them. -/
structure Ready (s : State) (bound : Nat) (completed : Completed) : Prop where
  size_eq : completed.size = s.dicts.size
  there : ∀ number, bound ≤ number → number < s.dicts.size →
    (∀ parent, bound ≤ parent → number ∉ numbersOf (s.entries parent)) →
      completed[number]? = some (some (s.dictOf number))

section

variable {s : State} {m : Type → Type} [Monad m] [LawfulMonad m]
  {taking : Nat → StateT Completed m Dict}
  (htaking : ∀ number, Yields s.dictOf (taking number) [number] (s.dictOf number))
include htaking

theorem Ready.complete (h : Owned s) {bound : Nat} {completed : Completed}
    (hready : Ready s (bound + 1) completed) :
    ∃ rest, (completeBy taking bound (s.entries bound)).run completed = pure ((), rest) ∧
      Ready s bound rest := by
  -- This dictionary is the one holder of those in it, so no later one has taken them.
  have hthere : ∀ child ∈ numbersOf (s.entries bound),
      completed[child]? = some (some (s.dictOf child)) := by
    intro child hchild
    rcases List.mem_flatMap.mp hchild with ⟨entry, hentry, hmem⟩
    refine hready.there child (h.later bound entry hentry child hmem) (h.child_lt hentry hmem) ?_
    intro parent hparent hchild'
    have hsame : bound = parent := h.holder_unique hchild hchild'
    omega
  rcases Yields.entries htaking (h.nodup_numbersOf bound) completed hthere with
    ⟨rest, hrun, hsize, hrest⟩
  rw [← h.dictOf_eq bound] at hrun
  refine ⟨rest.setIfInBounds bound (some (s.dictOf bound)), ?_, ?_, ?_⟩
  · rw [completeBy, StateT.run_bind, hrun, pure_bind]
    rfl
  · simp [hsize, hready.size_eq]
  · intro number hle hlt hfree
    rw [Array.getElem?_setIfInBounds]
    split
    · next heq =>
        subst heq
        rw [if_pos (by rw [hsize, hready.size_eq]; exact hlt)]
    · next hne =>
        rw [hrest number (hfree bound (Nat.le_refl _))]
        refine hready.there number (by omega) hlt ?_
        intro parent hparent
        exact hfree parent (by omega)

theorem Ready.completeBelow (h : Owned s) {bound : Nat} {completed : Completed}
    (hready : Ready s bound completed) :
    ∃ rest, (completeBelowBy taking s.dicts bound).run completed = pure ((), rest) ∧
      Ready s 0 rest := by
  -- Dictionaries hold greater numbers only, so the induction goes down with the bound.
  induction bound generalizing completed with
  | zero => exact ⟨completed, rfl, hready⟩
  | succ bound ih =>
      rcases Ready.complete htaking h hready with ⟨middle, hrun, hmiddle⟩
      rcases ih hmiddle with ⟨rest, hrun', hrest⟩
      refine ⟨rest, ?_, hrest⟩
      change (completeBy taking bound (s.entries bound) >>= fun _ =>
        completeBelowBy taking s.dicts bound).run completed = _
      rw [StateT.run_bind, hrun, pure_bind]
      exact hrun'

/-- However dictionaries are taken, the document of a state holds what its numbers stand for. -/
theorem State.documentBy_eq (h : Owned s) :
    s.documentBy taking =
      pure { globals := s.dictOf globalsNumber, steps := s.steps.toList.map s.dictOf } := by
  have hstart : Ready s s.dicts.size (Array.replicate s.dicts.size none) := by
    refine ⟨by simp, ?_⟩
    intro number hle hlt
    omega
  rcases Ready.completeBelow htaking h hstart with ⟨completed, hrun, hready⟩
  have hyields : Yields s.dictOf (do
      let steps ← s.steps.toList.mapM taking
      let globals ← taking globalsNumber
      return ({ globals, steps } : Document)) (s.steps.toList ++ [globalsNumber])
      { globals := s.dictOf globalsNumber, steps := s.steps.toList.map s.dictOf } := by
    refine (Yields.mapM_take htaking h.nodup_steps).bind ?_ ?_
    · exact (htaking globalsNumber).map fun globals =>
        ({ globals, steps := s.steps.toList.map s.dictOf } : Document)
    · intro number hstep hglobals
      rw [List.mem_singleton.mp hglobals] at hstep
      exact h.globals_not_mem_steps hstep
  -- The globals and the steps have no holder, so they are what is left to take.
  obtain ⟨rest, hrun', -⟩ := hyields completed (by
    intro number hmem
    rcases List.mem_append.mp hmem with hstep | hglobals
    · exact hready.there number (Nat.zero_le _) (h.step_lt hstep) fun parent _ =>
        h.not_mem_numbersOf_of_mem_steps hstep parent
    · rw [List.mem_singleton.mp hglobals]
      exact hready.there globalsNumber (Nat.zero_le _) h.size_pos fun parent _ =>
        h.globals_not_mem_numbersOf parent)
  rw [State.documentBy, StateT.run_bind, hrun, pure_bind]
  exact (congrArg (Prod.fst <$> ·) hrun').trans (map_pure _ _)

end

/-- The document of a state holds what its numbers stand for. -/
theorem State.document_eq {s : State} (h : Owned s) :
    s.document =
      { globals := s.dictOf globalsNumber, steps := s.steps.toList.map s.dictOf } := by
  rw [s.document_eq_documentBy]
  exact documentBy_eq Yields.take h

end SolverLog.Builder
