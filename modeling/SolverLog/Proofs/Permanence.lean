import SolverLog.Proofs.Growth

/-!
# Dictionaries keep their places

A dictionary stays where it was put for as long as the log goes on, and it stands at the same place
in every state that differs in values only. So the path of a number does not depend on the state in
which it is looked up.

* `State.KeepsPlaces` — what one state holds stands at the same places in another one.
* `Addressed.path_eq` — then the numbers have the same paths.
* `Addressed.injective` — different dictionaries have different paths.
-/

namespace SolverLog

/-- An entry is still there, and what its key holds is related. -/
theorem Entries.EmbedIn.exists_mem {α β : Type} {R : α → β → Prop} {d : Entries α} {e : Entries β}
    (h : EmbedIn R d e) {key : String} {a : α} (hmem : (key, a) ∈ d) :
    ∃ b, R a b ∧ (key, b) ∈ e := by
  induction h with
  | nil => cases hmem
  | @cons other a' b d e hvalue _ ih =>
      rcases List.mem_cons.mp hmem with heq | hrest
      · cases heq
        exact ⟨b, hvalue, List.mem_cons_self⟩
      · obtain ⟨b', hb', hmem'⟩ := ih hrest
        exact ⟨b', hb', List.mem_cons_of_mem _ hmem'⟩

namespace Builder

variable {s t : State} {path path' : Nat → Path}

/-- What a state holds stands at the same places in another one, where lists may be longer. -/
structure State.KeepsPlaces (s t : State) : Prop where
  steps : s.steps.toList <+: t.steps.toList
  member : ∀ {parent number : Nat} {key : String}, (key, Slot.dict number) ∈ s.entries parent →
    (key, Slot.dict number) ∈ t.entries parent
  element : ∀ {parent : Nat} {key : String} {numbers : List Nat},
    (key, Slot.list numbers) ∈ s.entries parent →
      ∃ numbers', numbers <+: numbers' ∧ (key, Slot.list numbers') ∈ t.entries parent

theorem State.EmbedsIn.keepsPlaces (h : s.EmbedsIn t) : s.KeepsPlaces t where
  steps := h.steps
  member := by
    intro parent number key hentry
    obtain ⟨slot, hslot, hmem⟩ := (h.entries parent).exists_mem hentry
    cases hslot
    exact hmem
  element := by
    intro parent key numbers hentry
    obtain ⟨slot, hslot, hmem⟩ := (h.entries parent).exists_mem hentry
    cases hslot with
    | list hprefix => exact ⟨_, hprefix, hmem⟩

theorem State.Alike.keepsPlaces {R : Value → Value → Prop} (h : s.Alike R t) : s.KeepsPlaces t := by
  -- Entries that are alike are embedded, whatever the values are.
  have hembed : ∀ parent, Entries.EmbedIn (Slot.Alike R) (s.entries parent) (t.entries parent) :=
    fun parent => .of_alike (h.entries parent) fun _ _ hslot => hslot
  refine ⟨h.steps_eq ▸ List.prefix_refl _, ?_, ?_⟩
  · intro parent number key hentry
    obtain ⟨slot, hslot, hmem⟩ := (hembed parent).exists_mem hentry
    cases hslot
    exact hmem
  · intro parent key numbers hentry
    obtain ⟨slot, hslot, hmem⟩ := (hembed parent).exists_mem hentry
    cases hslot
    exact ⟨numbers, List.prefix_refl _, hmem⟩

theorem getElem?_of_initial {α : Type} {items more : List α} (h : items <+: more) {index : Nat}
    {item : α} (hitem : items[index]? = some item) : more[index]? = some item := by
  obtain ⟨rest, rfl⟩ := h
  rw [List.getElem?_append_left (List.getElem?_eq_some_iff.mp hitem).1]
  exact hitem

/-- A number has the same path in every state that keeps its place. -/
theorem Addressed.path_eq (ha : Addressed s path) (h : Owned s) (ha' : Addressed t path')
    (hkeeps : s.KeepsPlaces t) {number : Nat} (hnumber : number < s.dicts.size) :
    path' number = path number := by
  -- A path goes through that of the holder, which has a smaller number.
  induction number using Nat.strong_induction_on with
  | _ number ih =>
      rcases h.holder hnumber with rfl | ⟨parent, ⟨key, slot⟩, hentry, hchild⟩ | hstep
      · rw [ha.globals, ha'.globals]
      · have hlater : parent < number := h.later parent _ hentry number hchild
        have hparent : path' parent = path parent := ih parent hlater (by omega)
        cases slot with
        | value held => simp at hchild
        | dict child =>
            have heq : number = child := by simpa using hchild
            subst heq
            rw [ha.member hentry, ha'.member (hkeeps.member hentry), hparent]
        | list numbers =>
            rcases List.mem_iff_getElem?.mp hchild with ⟨index, hindex⟩
            rw [Slot.numbers_list] at hindex
            obtain ⟨numbers', hprefix, hentry'⟩ := hkeeps.element hentry
            rw [ha.element hentry hindex, ha'.element hentry' (getElem?_of_initial hprefix hindex),
              hparent]
      · rcases List.mem_iff_getElem?.mp hstep with ⟨index, hindex⟩
        rw [ha.step hindex, ha'.step (getElem?_of_initial hkeeps.steps hindex)]

/-- What a path says of the dictionary that has it. -/
inductive Standing (s : State) (path : Nat → Path) (number : Nat) : Path → Prop where
  | globals (hnumber : number = globalsNumber) : Standing s path number .globals
  | step {index : Nat} (hstep : s.steps.toList[index]? = some number) :
      Standing s path number (.step index)
  | member {parent : Nat} {key : String} (hlater : parent < number)
      (hslot : (s.entries parent).value? key = some (.dict number)) :
      Standing s path number (.member (path parent) key)
  | element {parent : Nat} {key : String} {numbers : List Nat} {index : Nat}
      (hlater : parent < number) (hslot : (s.entries parent).value? key = some (.list numbers))
      (hindex : numbers[index]? = some number) :
      Standing s path number (.element (path parent) key index)

theorem Addressed.standing (ha : Addressed s path) (h : Owned s) {number : Nat}
    (hnumber : number < s.dicts.size) : Standing s path number (path number) := by
  rcases h.holder hnumber with rfl | ⟨parent, ⟨key, slot⟩, hentry, hchild⟩ | hstep
  · rw [ha.globals]
    exact .globals rfl
  · have hlater : parent < number := h.later parent _ hentry number hchild
    have hslot := Entries.value?_of_mem (h.nodup_keys parent) hentry
    cases slot with
    | value held => simp at hchild
    | dict child =>
        have heq : number = child := by simpa using hchild
        subst heq
        rw [ha.member hentry]
        exact .member hlater hslot
    | list numbers =>
        rcases List.mem_iff_getElem?.mp hchild with ⟨index, hindex⟩
        rw [ha.element hentry hindex]
        exact .element hlater hslot hindex
  · rcases List.mem_iff_getElem?.mp hstep with ⟨index, hindex⟩
    rw [ha.step hindex]
    exact .step hindex

/-- Different dictionaries have different paths. -/
theorem Addressed.injective (ha : Addressed s path) (h : Owned s) {m n : Nat}
    (hm : m < s.dicts.size) (hn : n < s.dicts.size) (heq : path m = path n) : m = n := by
  -- A path tells that of the holder, which has a smaller number.
  induction m using Nat.strong_induction_on generalizing n with
  | _ m ih =>
      have hfirst := ha.standing h hm
      have hsecond := ha.standing h hn
      rw [← heq] at hsecond
      generalize path m = at' at hfirst hsecond
      cases hfirst with
      | globals hzero =>
          cases hsecond with
          | globals hzero' => rw [hzero, hzero']
      | step hstep =>
          cases hsecond with
          | step hstep' => exact Option.some.inj (hstep.symm.trans hstep')
      | @member parent key hlater hslot =>
          generalize hparent : path parent = above at hsecond
          cases hsecond with
          | @member parent' _ hlater' hslot' =>
              have hsame : parent = parent' := ih parent hlater (by omega) (by omega) hparent
              subst hsame
              rw [hslot] at hslot'
              cases hslot'
              rfl
      | @element parent key numbers index hlater hslot hindex =>
          generalize hparent : path parent = above at hsecond
          cases hsecond with
          | @element parent' _ numbers' _ hlater' hslot' hindex' =>
              have hsame : parent = parent' := ih parent hlater (by omega) (by omega) hparent
              subst hsame
              rw [hslot] at hslot'
              cases hslot'
              exact Option.some.inj (hindex.symm.trans hindex')

end Builder

end SolverLog
