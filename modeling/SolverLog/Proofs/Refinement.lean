import Mathlib.Logic.Function.Basic
import SolverLog.Proofs.Draft
import SolverLog.Proofs.Transition

/-!
# The store refines the draft

A state of the store stands for a draft (`Draws`), and every move on the state does what the record
does to the draft.

* `Addressed.put`, `Addressed.addAt` — the paths after an operation on the store.
* `Draws.set`, `Draws.enter` — a field that is set, a section that is opened.
* `Document.ofLines_eq_draft` — both ways of reading a log give the same document, or the same
  error.
-/

namespace SolverLog

namespace Builder

variable {s : State} {path : Nat → Path}

/-! ## Paths after an operation -/

theorem Addressed.initial : Addressed .initial fun _ => .globals where
  globals := rfl
  step := by simp [State.initial]
  member := by simp [State.entries_initial]
  element := by simp [State.entries_initial]

/-- Setting a key to a slot whose dictionaries have their paths. -/
theorem Addressed.put (ha : Addressed s path) (h : Owned s) {s' : State} {number : Nat}
    (hnumber : number < s.dicts.size) {key : String} {slot : Slot}
    (hput : s'.entries number = (s.entries number).put key slot)
    (hrest : ∀ other, other ≠ number →
      s'.entries other = s.entries other ∨ ∀ entry ∈ s'.entries other, entry.2.numbers = [])
    (hsteps : s'.steps = s.steps) {path' : Nat → Path}
    (hsame : ∀ other < s.dicts.size, path' other = path other)
    (hdict : ∀ child, slot = .dict child → path' child = .member (path number) key)
    (hlist : ∀ numbers, slot = .list numbers → ∀ (index child : Nat), numbers[index]? = some child →
      path' child = .element (path number) key index) :
    Addressed s' path' := by
  -- An entry with dictionaries is one from before, or the one that was set.
  have hcases : ∀ {parent : Nat} {entry : String × Slot}, entry ∈ s'.entries parent →
      entry.2.numbers ≠ [] → entry ∈ s.entries parent ∨ parent = number ∧ entry = (key, slot) := by
    intro parent entry hentry hnumbers
    by_cases heq : parent = number
    · subst heq
      rw [hput] at hentry
      rcases Entries.mem_put hentry with hnew | hold
      · exact Or.inr ⟨rfl, hnew⟩
      · exact Or.inl hold
    · rcases hrest parent heq with hkeep | hfresh
      · exact Or.inl (hkeep ▸ hentry)
      · exact absurd (hfresh entry hentry) hnumbers
  have hparent : ∀ {parent : Nat} {entry : String × Slot}, entry ∈ s.entries parent →
      path' parent = path parent := by
    intro parent entry hentry
    apply hsame
    by_contra hge
    simp [State.entries_of_size_le (Nat.le_of_not_lt hge)] at hentry
  refine ⟨?_, ?_, ?_, ?_⟩
  · rw [hsame globalsNumber h.size_pos, ha.globals]
  · intro index step hstep
    rw [hsteps] at hstep
    rw [hsame _ (h.step_lt (List.mem_of_getElem? hstep)), ha.step hstep]
  · intro parent name child hentry
    rcases hcases hentry (by simp) with hold | ⟨rfl, hnew⟩
    · rw [hsame _ (h.child_lt hold (by simp)), hparent hold, ha.member hold]
    · cases hnew
      rw [hsame _ hnumber, hdict child rfl]
  · intro parent name numbers index child hentry hindex
    have hmem : child ∈ numbers := List.mem_of_getElem? hindex
    have hnumbers : numbers ≠ [] := List.ne_nil_of_mem hmem
    rcases hcases hentry hnumbers with hold | ⟨rfl, hnew⟩
    · rw [hsame _ (h.child_lt hold hmem), hparent hold, ha.element hold hindex]
    · cases hnew
      rw [hsame _ hnumber, hlist numbers rfl index child hindex]

theorem State.mem_of_elements {parent index child : Nat} {key : String}
    (h : (s.elements parent key)[index]? = some child) :
    (key, Slot.list (s.elements parent key)) ∈ s.entries parent := by
  unfold State.elements at h ⊢
  split
  · next numbers hvalue => exact Entries.mem_of_value? hvalue
  · next hvalue =>
      split at h
      · next numbers hlist => exact absurd hlist (hvalue numbers)
      · simp at h

/-- The path of the new dictionary at a place. -/
def State.pathAt (s : State) (path : Nat → Path) : Place → Path
  | .topLevel => .step s.steps.size
  | .member parent key => .member (path parent) key
  | .element parent key => .element (path parent) key (s.elements parent key).length

/-- The paths after a dictionary is added at a place. -/
def State.pathsWith (s : State) (path : Nat → Path) (place : Place) : Nat → Path :=
  Function.update path s.dicts.size (s.pathAt path place)

theorem State.pathsWith_of_lt (place : Place) {number : Nat} (h : number < s.dicts.size) :
    s.pathsWith path place number = path number :=
  Function.update_of_ne (by omega) _ _

theorem State.pathsWith_size (place : Place) :
    s.pathsWith path place s.dicts.size = s.pathAt path place :=
  Function.update_self ..

/-- The entries after a dictionary is added at a key of another one. -/
theorem State.entries_add_set (fresh : Entries Slot) {parent : Nat} (hparent : parent < s.dicts.size)
    (key : String) (slot : Slot) :
    ((s.add fresh).set parent key slot).entries parent = (s.entries parent).put key slot ∧
      ((s.add fresh).set parent key slot).entries s.dicts.size = fresh ∧
        ∀ other, other ≠ parent → other ≠ s.dicts.size →
          ((s.add fresh).set parent key slot).entries other = s.entries other := by
  have hparent' : parent < (s.add fresh).dicts.size := by
    rw [State.size_add]
    omega
  have hset := State.entries_set (s.add fresh) hparent' key slot
  refine ⟨?_, ?_, ?_⟩
  · rw [hset, if_pos rfl, State.entries_add, if_neg (by omega)]
  · rw [hset, if_neg (by omega), State.entries_add, if_pos rfl]
  · intro other hother hsize
    rw [hset, if_neg hother, State.entries_add, if_neg hsize]

/-- An element of a list with one more is an old one or the last one. -/
theorem getElem?_concat_cases {α : Type} {items : List α} {last item : α} {index : Nat}
    (h : (items ++ [last])[index]? = some item) :
    items[index]? = some item ∨ index = items.length ∧ item = last := by
  rw [List.getElem?_append] at h
  split at h
  · exact Or.inl h
  · next hge =>
      rw [List.getElem?_singleton] at h
      split at h
      · next hzero =>
          cases h
          exact Or.inr ⟨by omega, rfl⟩
      · cases h

/-- Adding a top-level step. -/
theorem Addressed.addStep (ha : Addressed s path) (h : Owned s) {fresh : Entries Slot}
    (hfresh : ∀ entry ∈ fresh, entry.2.numbers = []) :
    Addressed (s.addAt fresh .topLevel) (s.pathsWith path .topLevel) := by
  have hsame : ∀ other < s.dicts.size, s.pathsWith path .topLevel other = path other :=
    fun other hother => State.pathsWith_of_lt .topLevel hother
  have hentries : ∀ other, (s.addAt fresh .topLevel).entries other =
      if other = s.dicts.size then fresh else s.entries other := s.entries_add fresh
  -- What refers to a dictionary was there before.
  have hold : ∀ {parent : Nat} {entry : String × Slot},
      entry ∈ (s.addAt fresh .topLevel).entries parent → entry.2.numbers ≠ [] →
        entry ∈ s.entries parent ∧ parent < s.dicts.size := by
    intro parent entry hentry hnumbers
    rw [hentries] at hentry
    split at hentry
    · exact absurd (hfresh entry hentry) hnumbers
    · refine ⟨hentry, ?_⟩
      by_contra hge
      simp [State.entries_of_size_le (Nat.le_of_not_lt hge)] at hentry
  refine ⟨?_, ?_, ?_, ?_⟩
  · rw [hsame globalsNumber h.size_pos, ha.globals]
  · intro index step hstep
    rw [State.addAt, Array.toList_push] at hstep
    rcases getElem?_concat_cases hstep with hmem | ⟨rfl, rfl⟩
    · rw [hsame step (h.step_lt (List.mem_of_getElem? hmem)), ha.step hmem]
    · exact State.pathsWith_size .topLevel
  · intro parent key child hentry
    rcases hold hentry (by simp) with ⟨hmem, hlt⟩
    rw [hsame parent hlt, hsame child (h.child_lt hmem (by simp)), ha.member hmem]
  · intro parent key numbers index child hentry hindex
    have hchild : child ∈ numbers := List.mem_of_getElem? hindex
    rcases hold hentry (List.ne_nil_of_mem hchild) with ⟨hmem, hlt⟩
    rw [hsame parent hlt, hsame child (h.child_lt hmem hchild), ha.element hmem hindex]

/-- Adding a dictionary at a place. -/
theorem Addressed.addAt (ha : Addressed s path) (h : Owned s) {fresh : Entries Slot}
    (hfresh : ∀ entry ∈ fresh, entry.2.numbers = []) {place : Place}
    (hparent : ∀ parent, place.parent? = some parent → parent < s.dicts.size) :
    Addressed (s.addAt fresh place) (s.pathsWith path place) := by
  have hsame : ∀ other < s.dicts.size, s.pathsWith path place other = path other :=
    fun other hother => State.pathsWith_of_lt place hother
  have hnew : s.pathsWith path place s.dicts.size = s.pathAt path place :=
    State.pathsWith_size place
  have hrest : ∀ {parent key slot}, parent < s.dicts.size → ∀ other, other ≠ parent →
      ((s.add fresh).set parent key slot).entries other = s.entries other ∨
        ∀ entry ∈ ((s.add fresh).set parent key slot).entries other, entry.2.numbers = [] := by
    intro parent key slot hlt other hne
    rcases State.entries_add_set fresh hlt key slot with ⟨-, hsize, hother⟩
    by_cases heq : other = s.dicts.size
    · subst heq
      rw [hsize]
      exact Or.inr hfresh
    · exact Or.inl (hother other hne heq)
  cases place with
  | topLevel => exact ha.addStep h hfresh
  | member parent key =>
      have hlt := hparent parent rfl
      apply ha.put h hlt (State.entries_add_set fresh hlt key _).1 (hrest hlt) rfl hsame
      · intro child hchild
        cases hchild
        exact hnew
      · intro numbers hnumbers
        cases hnumbers
  | element parent key =>
      have hlt := hparent parent rfl
      apply ha.put h hlt (State.entries_add_set fresh hlt key _).1 (hrest hlt) rfl hsame
      · intro child hchild
        cases hchild
      · intro numbers hnumbers index child hindex
        cases hnumbers
        rcases getElem?_concat_cases hindex with hmem | ⟨rfl, rfl⟩
        · have hentry := State.mem_of_elements hmem
          rw [hsame child (h.child_lt hentry (List.mem_of_getElem? hmem)), ha.element hentry hmem]
        · exact hnew

/-! ## What a draft is -/

/-- A draft is what a state stands for, with those paths. -/
structure Draws (path : Nat → Path) (s : State) (draft : Draft) : Prop where
  owned : Owned s
  addressed : Addressed s path
  document_eq : draft.document = s.document
  openings_eq : draft.openings = s.frames.map fun frame =>
    { path := path frame.dict, opened := frame.opened, line := frame.line }
  fastSteps_eq : draft.fastSteps = s.fastSteps

/-- An outcome of moves is what a result of reading stands for: the same error, or a state that
stands for the draft. -/
def Outcome.DrawnBy (outcome : Outcome) (result : Except StructureError Draft) : Prop :=
  match outcome with
  | .reached s => ∃ path draft, result = .ok draft ∧ Draws path s draft
  | .refused error _ => result = .error error

/-- Moves that are carried out one after the other, and what is read one after the other. -/
theorem Outcome.DrawnBy.bind {line : Nat} {first second : List Move}
    {result : Except StructureError Draft} {next : Draft → Except StructureError Draft}
    (hfirst : (run line first s).DrawnBy result)
    (hsecond : ∀ path s' draft, Draws path s' draft → (run line second s').DrawnBy (next draft)) :
    (run line (first ++ second) s).DrawnBy (result.bind next) := by
  rw [run_append]
  cases hrun : run line first s with
  | reached s' =>
      rw [hrun] at hfirst
      rcases hfirst with ⟨path, draft, rfl, hdraws⟩
      exact hsecond path s' draft hdraws
  | refused error last =>
      rw [hrun] at hfirst
      have hresult : result = .error error := hfirst
      rw [hresult]
      rfl

namespace Draws

variable {draft : Draft}

theorem initial : Draws (fun _ => .globals) .initial .empty where
  owned := .initial
  addressed := .initial
  document_eq := by
    rw [State.document_eq .initial, Owned.initial.dictOf_eq, State.entries_initial]
    rfl
  openings_eq := rfl
  fastSteps_eq := rfl

/-! ## What is looked up -/

theorem top_eq (h : Draws path s draft) : draft.top = path s.current := by
  unfold Draft.top State.current
  rw [h.openings_eq]
  cases s.frames with
  | nil => exact h.addressed.globals.symm
  | cons frame outer => rfl

theorem host_eq (h : Draws path s draft) : draft.host = path s.host := by
  unfold Draft.host State.host
  rw [h.openings_eq, Draft.find?_step_map Frame.opened fun _ => rfl, h.top_eq]
  cases s.frames.find? (·.opened = .step) with
  | none => rfl
  | some frame => rfl

theorem names_eq (h : Draws path s draft) : draft.names = s.path := by
  unfold Draft.names State.path
  rw [h.openings_eq]
  cases s.frames with
  | nil => rfl
  | cons frame outer =>
      simp only [List.map_cons, List.reverse_cons, List.map_append, List.map_reverse, List.map_map]
      rfl

theorem dictAt_eq (h : Draws path s draft) {number : Nat} (hnumber : number < s.dicts.size) :
    draft.dictAt (path number) = s.dictOf number := by
  unfold Draft.dictAt
  rw [h.document_eq, h.addressed.at?_eq h.owned hnumber]
  rfl

theorem value?_dictAt (h : Draws path s draft) {number : Nat} (hnumber : number < s.dicts.size)
    (key : String) :
    (draft.dictAt (path number)).value? key =
      ((s.entries number).value? key).map (Slot.standsFor s.dictOf) := by
  rw [h.dictAt_eq hnumber]
  exact Addressed.value?_dictOf h.owned number key

/-! ## Fields -/

theorem set_value (h : Draws path s draft) {number : Nat} (hnumber : number < s.dicts.size)
    {key : String} (hnew : (s.entries number).value? key = none) (value : Value) :
    Draws path (s.set number key (.value value))
      (draft.append (path number) key (.value value)) := by
  have howned : Owned (s.set number key (.value value)) := h.owned.set_value hnumber hnew
  have hentries := s.entries_set hnumber key (.value value)
  have hput : (s.set number key (.value value)).entries number =
      (s.entries number).put key (.value value) := by
    rw [hentries, if_pos rfl]
  have hrest : ∀ other, other ≠ number →
      (s.set number key (.value value)).entries other = s.entries other := by
    intro other hne
    rw [hentries, if_neg hne]
  have hmissing : Entries.value? (s.dictOf number) key = none := by
    rw [Addressed.value?_dictOf h.owned, hnew]
    rfl
  refine ⟨howned, ?_, ?_, h.openings_eq, h.fastSteps_eq⟩
  · apply h.addressed.put h.owned hnumber hput (fun other hne => Or.inl (hrest other hne)) rfl
      (fun _ _ => rfl)
    · intro child hchild
      cases hchild
    · intro numbers hnumbers
      cases hnumbers
  · unfold Draft.append
    rw [h.document_eq]
    symm
    apply h.addressed.document_put h.owned howned hnumber hput (fun other _ => hrest other) rfl
    exact Entries.put_of_value?_eq_none _ hmissing

/-- A field that is set. -/
theorem set (h : Draws path s draft) (line : Nat) (field : String × Value) :
    (run line [.set field.1 field.2] s).DrawnBy (draft.setField line field) := by
  have hvalue := h.value?_dictAt h.owned.current_lt field.1
  unfold Draft.setField
  rw [h.top_eq, hvalue]
  cases hkey : (s.entries s.current).value? field.1 with
  | some slot =>
      have hrun : run line [.set field.1 field.2] s =
          .refused (.duplicateKey line field.1 s.path) s := by
        simp [run, Move.apply, hkey]
      rw [hrun, h.names_eq]
      rfl
  | none =>
      have hrun : run line [.set field.1 field.2] s =
          .reached (s.set s.current field.1 (.value field.2)) := by
        simp [run, Move.apply, hkey]
      rw [hrun]
      exact ⟨path, _, rfl, h.set_value h.owned.current_lt hkey field.2⟩

/-- Fields that are set in order. -/
theorem sets (h : Draws path s draft) (line : Nat) (fields : Payload) :
    (run line (Move.sets fields) s).DrawnBy (draft.setFields line fields) := by
  induction fields generalizing path s draft with
  | nil => exact ⟨path, draft, rfl, h⟩
  | cons field rest ih =>
      rw [Draft.setFields_cons]
      exact (h.set line field).bind fun path' s' draft' h' => ih h'

/-! ## Sections -/

theorem enterAt (h : Draws path s draft) {number : Nat} (hnumber : number < s.dicts.size) (line : Nat)
    (opened : Section) :
    Draws path (s.enter line opened number) (draft.enterAt line opened (path number)) where
  owned := h.owned.enter hnumber line opened
  addressed := ⟨h.addressed.globals, h.addressed.step, h.addressed.member, h.addressed.element⟩
  document_eq := h.document_eq
  openings_eq := by
    unfold Draft.enterAt State.enter
    rw [h.openings_eq]
    rfl
  fastSteps_eq := h.fastSteps_eq

/-- A section with a new dictionary, given what that does to the document. -/
theorem enterNew (h : Draws path s draft) {opened : Section}
    (hfree : s.vacancy (s.place opened) = .free) {document : Document}
    (hdocument : document = (s.addAt (s.newEntries opened) (s.place opened)).document) (line : Nat) :
    Draws (s.pathsWith path (s.place opened))
      ((s.addAt (s.newEntries opened) (s.place opened)).enter line opened s.dicts.size)
      ({ draft with document }.enterAt line opened (s.pathAt path (s.place opened))) := by
  have hadded : Draws (s.pathsWith path (s.place opened))
      (s.addAt (s.newEntries opened) (s.place opened)) { draft with document } := by
    refine ⟨h.owned.addAt hfree, ?_, hdocument, ?_, ?_⟩
    · exact h.addressed.addAt h.owned Owned.numbers_newEntries
        fun parent hparent => h.owned.parent_lt hparent
    · rw [State.frames_addAt]
      refine h.openings_eq.trans (List.map_congr_left ?_)
      intro frame hframe
      rw [State.pathsWith_of_lt _ (h.owned.opened_lt frame hframe)]
    · rw [State.fastSteps_addAt]
      exact h.fastSteps_eq
  -- The section is open at the path of its new dictionary.
  rw [← State.pathsWith_size]
  apply hadded.enterAt
  rw [State.size_addAt]
  omega

/-- What the new dictionary of a section stands for. -/
theorem dictOf_newEntries (h : Draws path s draft) {s' : State} (h' : Owned s') {number : Nat}
    {opened : Section} (hentries : s'.entries number = s.newEntries opened) :
    s'.dictOf number = draft.newDict opened := by
  rw [h'.dictOf_eq, hentries]
  cases opened with
  | plain name => rfl
  | entry list => rfl
  | step =>
      unfold Draft.newDict
      rw [h.fastSteps_eq]
      rfl

/-- What the numbers stand for after a dictionary is added at a key of another one. -/
theorem dictOf_add_set (h : Draws path s draft) {opened : Section} {parent : Nat} {key : String}
    {slot : Slot} (hparent : parent < s.dicts.size)
    (h' : Owned ((s.add (s.newEntries opened)).set parent key slot)) :
    ((s.add (s.newEntries opened)).set parent key slot).dictOf s.dicts.size = draft.newDict opened ∧
      ∀ other, parent < other → other < s.dicts.size →
        ((s.add (s.newEntries opened)).set parent key slot).dictOf other = s.dictOf other := by
  rcases State.entries_add_set (s.newEntries opened) hparent key slot with ⟨hput, hnew, hrest⟩
  refine ⟨h.dictOf_newEntries h' hnew, ?_⟩
  intro other hlater hother
  apply h.owned.standsFor_same _ hother
  · intro hwithin
    have hle : other ≤ parent := h.owned.within_le hwithin
    omega
  · exact (Addressed.standsFor_put h.owned h' hput
      fun other hother hne => hrest other hne (by omega)).1

/-- What the document is after a dictionary is added at a key of another one. -/
theorem document_add_set (h : Draws path s draft) {opened : Section} {parent : Nat} {key : String}
    {slot : Slot} (hparent : parent < s.dicts.size)
    (h' : Owned ((s.add (s.newEntries opened)).set parent key slot)) {node : Node}
    (hnode : ∀ find : Nat → Dict, find s.dicts.size = draft.newDict opened →
      (∀ other, parent < other → other < s.dicts.size → find other = s.dictOf other) →
        slot.standsFor find = node)
    {change : Dict → Dict}
    (hchange : Entries.put (s.dictOf parent) key node = change (s.dictOf parent)) :
    ((s.add (s.newEntries opened)).set parent key slot).document =
      draft.document.modify (path parent) change := by
  rcases State.entries_add_set (s.newEntries opened) hparent key slot with ⟨hput, -, hrest⟩
  rcases h.dictOf_add_set hparent h' with ⟨hnew, hsame⟩
  rw [h.document_eq]
  apply h.addressed.document_put h.owned h' hparent hput
    (fun other hother hne => hrest other hne (by omega)) rfl
  rw [hnode _ hnew hsame]
  exact hchange

/-- A section with a name of its own, new or opened again. -/
theorem enterMember (h : Draws path s draft) (line : Nat) (name : String) :
    (run line [.enter (.plain name)] s).DrawnBy (draft.enterMember line name) := by
  have hcurrent : s.current < s.dicts.size := h.owned.current_lt
  have hplace : s.place (.plain name) = .member s.current name := rfl
  unfold Draft.enterMember
  simp only [h.top_eq, h.value?_dictAt hcurrent, h.names_eq]
  cases hkey : (s.entries s.current).value? name with
  | none =>
      have hfree : s.vacancy (s.place (.plain name)) = .free := by
        simp [hplace, State.vacancy, hkey]
      have hmissing : Entries.value? (s.dictOf s.current) name = none := by
        rw [Addressed.value?_dictOf h.owned, hkey]
        rfl
      have howned : Owned ((s.add (s.newEntries (.plain name))).set s.current name
          (.dict s.dicts.size)) := h.owned.addAt hfree
      rw [run_enter_free hfree]
      refine ⟨_, _, rfl, h.enterNew hfree ?_ line⟩
      symm
      apply h.document_add_set hcurrent howned
      · intro find hnew _
        rw [Slot.standsFor, hnew]
      · exact Entries.put_of_value?_eq_none _ hmissing
  | some slot =>
      cases slot with
      | dict number =>
          have hheld : s.vacancy (s.place (.plain name)) = .held number := by
            simp [hplace, State.vacancy, hkey]
          have hentry : (name, Slot.dict number) ∈ s.entries s.current := Entries.mem_of_value? hkey
          rw [run_enter_held hheld, ← h.addressed.member hentry]
          exact ⟨path, _, rfl, h.enterAt (h.owned.held_lt hheld) line (.plain name)⟩
      | value held =>
          rw [run_enter_blocked (by simp [hplace, State.vacancy, hkey])]
          rfl
      | list numbers =>
          rw [run_enter_blocked (by simp [hplace, State.vacancy, hkey])]
          rfl

/-- What the document is after an element is added to a list that is new or there already. -/
theorem document_addAt_element (h : Draws path s draft) {opened : Section} {parent : Nat}
    {key : String} (hplace : s.place opened = .element parent key)
    (hfree : s.vacancy (s.place opened) = .free) {change : Dict → Dict}
    (hchange : Entries.put (s.dictOf parent) key
      (.list ((s.elements parent key).map s.dictOf ++ [draft.newDict opened])) =
        change (s.dictOf parent)) :
    (s.addAt (s.newEntries opened) (s.place opened)).document =
      draft.document.modify (path parent) change := by
  have hparent : parent < s.dicts.size := h.owned.parent_lt (by rw [hplace]; rfl)
  have howned := h.owned.addAt hfree
  rw [hplace] at howned ⊢
  refine h.document_add_set hparent howned ?_ hchange
  -- The old elements stand for what they did, and the last one for the new dictionary.
  intro find hnew hsame
  rw [Slot.standsFor, List.map_append, List.map_singleton, hnew]
  congr 2
  apply List.map_congr_left
  intro child hchild
  rcases List.mem_iff_getElem?.mp hchild with ⟨index, hindex⟩
  have hentry := State.mem_of_elements hindex
  exact hsame child (h.owned.later parent _ hentry child hchild) (h.owned.child_lt hentry hchild)

/-- An element that is added to a list, given what that does to the document. -/
theorem enterElement_free (h : Draws path s draft) (line : Nat) {opened : Section} {parent : Nat}
    {key : String} (hplace : s.place opened = .element parent key)
    (hfree : s.vacancy (s.place opened) = .free) {document : Document}
    (hdocument : (s.addAt (s.newEntries opened) (s.place opened)).document = document) :
    (run line [.enter opened] s).DrawnBy
      (.ok ({ draft with document }.enterAt line opened
        (.element (path parent) key (s.elements parent key).length))) := by
  have hat : s.pathAt path (s.place opened) =
      .element (path parent) key (s.elements parent key).length := by
    rw [hplace]
    rfl
  rw [run_enter_free hfree, ← hat]
  exact ⟨_, _, rfl, h.enterNew hfree hdocument.symm line⟩

/-- A section in a list of the dictionary of a number. -/
theorem enterElement (h : Draws path s draft) (line : Nat) {opened : Section} {parent : Nat}
    {key : String} (hplace : s.place opened = .element parent key) :
    (run line [.enter opened] s).DrawnBy (draft.enterElement line opened (path parent) key) := by
  have hparent : parent < s.dicts.size := h.owned.parent_lt (by rw [hplace]; rfl)
  have hadded := h.enterElement_free line hplace
  unfold Draft.enterElement
  simp only [h.value?_dictAt hparent, h.names_eq]
  -- The list is new, or it grows, or there is something else at its key.
  cases hkey : (s.entries parent).value? key with
  | none =>
      have helements : s.elements parent key = [] := by
        simp [State.elements, hkey]
      have hfree : s.vacancy (s.place opened) = .free := by
        simp [hplace, State.vacancy, hkey]
      have hmissing : Entries.value? (s.dictOf parent) key = none := by
        rw [Addressed.value?_dictOf h.owned, hkey]
        rfl
      rw [helements] at hadded
      apply hadded hfree
      apply h.document_addAt_element hplace hfree
      rw [helements]
      exact Entries.put_of_value?_eq_none _ hmissing
  | some slot =>
      cases slot with
      | list numbers =>
          have helements : s.elements parent key = numbers := by
            simp [State.elements, hkey]
          have hfree : s.vacancy (s.place opened) = .free := by
            simp [hplace, State.vacancy, hkey]
          rw [helements] at hadded
          simp only [Option.map_some, Slot.standsFor, List.length_map]
          apply hadded hfree
          apply h.document_addAt_element hplace hfree
          rw [helements]
      | value held =>
          rw [run_enter_blocked (by simp [hplace, State.vacancy, hkey]), hplace]
          rfl
      | dict number =>
          rw [run_enter_blocked (by simp [hplace, State.vacancy, hkey]), hplace]
          rfl

/-- A step among the top-level steps. -/
theorem enterTopLevel (h : Draws path s draft) (line : Nat) (hplace : s.place .step = .topLevel) :
    (run line [.enter .step] s).DrawnBy (.ok (draft.enterTopLevel line)) := by
  have hfree : s.vacancy (s.place .step) = .free := by
    rw [hplace]
    rfl
  have hlength : draft.document.steps.length = s.steps.size := by
    rw [h.document_eq, State.document_eq h.owned]
    simp
  have hat : s.pathAt path (s.place .step) = .step draft.document.steps.length := by
    rw [hplace, hlength]
    rfl
  rw [run_enter_free hfree]
  refine ⟨s.pathsWith path (s.place .step), _, rfl, ?_⟩
  show Draws _ _ (Draft.enterAt
    { draft with document.steps := draft.document.steps ++ [draft.newDict .step] } line .step
      (.step draft.document.steps.length))
  rw [← hat]
  apply h.enterNew hfree
  have howned := h.owned.addAt hfree
  rw [hplace] at howned ⊢
  have hentries : ∀ other, (s.addAt (s.newEntries .step) .topLevel).entries other =
      if other = s.dicts.size then s.newEntries .step else s.entries other := s.entries_add _
  have hnew : (s.addAt (s.newEntries .step) .topLevel).dictOf s.dicts.size =
      draft.newDict .step := by
    apply h.dictOf_newEntries howned
    rw [hentries, if_pos rfl]
  -- No dictionary holds the new step, so none of them changes with it.
  have hsame : ∀ other < s.dicts.size,
      (s.addAt (s.newEntries .step) .topLevel).dictOf other = s.dictOf other := by
    intro other hother
    have hwithin : ¬Within s s.dicts.size other := by
      intro hwithin
      rcases Relation.ReflTransGen.cases_head hwithin with heq | ⟨parent, hheld, -⟩
      · omega
      · rcases heldBy_iff.mp hheld with ⟨entry, hentry, hchild⟩
        exact absurd (h.owned.child_lt hentry hchild) (Nat.lt_irrefl _)
    apply h.owned.standsFor_same _ hother hwithin
    intro other _ hne
    rw [howned.dictOf_eq, hentries, if_neg hne]
  have hsteps : s.steps.toList.map (s.addAt (s.newEntries .step) .topLevel).dictOf =
      s.steps.toList.map s.dictOf :=
    List.map_congr_left fun step hstep => hsame step (h.owned.step_lt hstep)
  have hlist : (s.addAt (s.newEntries .step) .topLevel).steps.toList =
      s.steps.toList ++ [s.dicts.size] := Array.toList_push
  rw [State.document_eq howned, hsame globalsNumber h.owned.size_pos, h.document_eq,
    State.document_eq h.owned, hlist, List.map_append, List.map_singleton, hsteps, hnew]

/-- A section that is opened. -/
theorem enter (h : Draws path s draft) (line : Nat) (opened : Section) :
    (run line [.enter opened] s).DrawnBy (draft.enter line opened) := by
  unfold Draft.enter
  cases opened with
  | plain name => exact h.enterMember line name
  | entry list =>
      simp only [h.top_eq]
      exact h.enterElement line rfl
  | step =>
      have hempty : draft.openings.isEmpty = true ↔ s.frames = [] := by
        rw [h.openings_eq]
        simp
      by_cases hframes : s.frames = []
      · simp only [hempty.mpr hframes, if_true]
        apply h.enterTopLevel
        simp [State.place, hframes]
      · simp only [hempty, hframes, if_false, h.fastSteps_eq, h.top_eq, h.host_eq]
        by_cases hfast : s.fastSteps = 0
        · simp only [hfast, if_true]
          apply h.enterElement
          simp [State.place, hframes, hfast]
        · simp only [hfast, if_false]
          apply h.enterElement
          simp [State.place, hframes, hfast]

/-! ## Records and lines -/

theorem fastSteps (h : Draws path s draft) {number other : Nat} (heq : number = other) :
    Draws path { s with fastSteps := number } { draft with fastSteps := other } where
  owned := h.owned.fastSteps number
  addressed := ⟨h.addressed.globals, h.addressed.step, h.addressed.member, h.addressed.element⟩
  document_eq := h.document_eq
  openings_eq := h.openings_eq
  fastSteps_eq := heq.symm

theorem leave (h : Draws path s draft) :
    Draws path { s with frames := s.frames.tail }
      { draft with openings := draft.openings.tail } where
  owned := h.owned.leave
  addressed := ⟨h.addressed.globals, h.addressed.step, h.addressed.member, h.addressed.element⟩
  document_eq := h.document_eq
  openings_eq := by
    show draft.openings.tail = _
    rw [h.openings_eq, List.map_tail]
  fastSteps_eq := h.fastSteps_eq

/-- A record that is read. -/
theorem record (h : Draws path s draft) (line : Nat) (record : Record) :
    (run line (Move.ofRecord record) s).DrawnBy (draft.readRecord line record) := by
  rw [Move.ofRecord_eq]
  unfold Draft.readRecord
  cases Marker.ofLabel record.label with
  | remark => exact h.sets line record.payload
  | opens opened =>
      exact (h.enter line opened).bind fun path s' draft h' => h'.sets line record.payload
  | closes closed =>
      -- Both sides check what is closed before they set the fields.
      simp only [h.openings_eq]
      cases hframes : s.frames with
      | nil =>
          have hrun : run line (.expect closed :: Move.sets record.payload ++ [.leave]) s =
              .refused (.unexpectedEnd line closed.name) s := by
            simp [run, Move.apply, hframes]
          rw [hrun]
          rfl
      | cons frame outer =>
          by_cases hopened : frame.opened = closed
          · have hrun : run line (.expect closed :: Move.sets record.payload ++ [.leave]) s =
                run line (Move.sets record.payload ++ [.leave]) s := by
              simp [run, Move.apply, hframes, hopened]
            simp only [List.map_cons, hopened, if_true]
            rw [hrun]
            exact (h.sets line record.payload).bind fun path s' draft h' => ⟨path, _, rfl, h'.leave⟩
          · have hrun : run line (.expect closed :: Move.sets record.payload ++ [.leave]) s =
                .refused (.mismatchedEnd line closed.name frame.opened.name) s := by
              simp [run, Move.apply, hframes, hopened]
            simp only [List.map_cons, hopened, if_false]
            rw [hrun]
            rfl
  | beginsFastSteps =>
      exact (h.sets line record.payload).bind fun path s' draft h' =>
        ⟨path, _, rfl, h'.fastSteps (congrArg (· + 1) h'.fastSteps_eq.symm)⟩
  | endsFastSteps =>
      simp only [h.fastSteps_eq]
      by_cases hfast : s.fastSteps = 0
      · have hrun : run line (.expectFast :: Move.sets record.payload ++ [.leaveFast]) s =
            .refused (.unbalancedFastSteps line) s := by
          simp [run, Move.apply, hfast]
        simp only [hfast, if_true]
        rw [hrun]
        rfl
      · have hrun : run line (.expectFast :: Move.sets record.payload ++ [.leaveFast]) s =
            run line (Move.sets record.payload ++ [.leaveFast]) s := by
          simp [run, Move.apply, hfast]
        simp only [hfast, if_false]
        rw [hrun]
        exact (h.sets line record.payload).bind fun path s' draft h' =>
          ⟨path, _, rfl, h'.fastSteps (congrArg (· - 1) h'.fastSteps_eq.symm)⟩

/-- The lines of a log that are read. -/
theorem lines (h : Draws path s draft) (indicator : String) (number : Nat) (lines : List String) :
    (runLines indicator number lines s).DrawnBy (draft.readLines indicator number lines) := by
  induction lines generalizing path s draft number with
  | nil => exact ⟨path, draft, rfl, h⟩
  | cons line following ih =>
      unfold runLines Draft.readLines Move.ofLine
      cases Record.read? indicator line following with
      | none => exact ih h (number + 1)
      | some record =>
          have hrecord := h.record number record
          cases hrun : run number (Move.ofRecord record) s with
          | reached s' =>
              rw [hrun] at hrecord
              rcases hrecord with ⟨path', draft', hread, h'⟩
              simp only [hread]
              exact ih h' (number + 1)
          | refused error last =>
              rw [hrun] at hrecord
              have hread : draft.readRecord number record = .error error := hrecord
              simp only [hread]
              rfl

/-- What a state comes to at the end of a log. -/
theorem finish (h : Draws path s draft) (options : Options) :
    s.finish options = draft.finish options := by
  unfold State.finish Draft.finish
  rw [h.openings_eq, h.document_eq]
  cases s.frames with
  | nil => rfl
  | cons frame outer => rfl

end Draws

end Builder

/-- Reading a log by way of the store and reading it into the document itself come to the same: the
same document, or the same error. -/
theorem Document.ofLines_eq_draft (options : Options) (lines : List String) :
    Document.ofLines options lines = Draft.ofLines options lines := by
  have hlines := Builder.Draws.initial.lines options.arrayIndicator 1 lines
  unfold Document.ofLines Draft.ofLines
  cases hrun : Builder.runLines options.arrayIndicator 1 lines .initial with
  | reached s =>
      rw [hrun] at hlines
      rcases hlines with ⟨path, draft, hread, h⟩
      rw [hread]
      exact h.finish options
  | refused error last =>
      rw [hrun] at hlines
      have hread : Draft.readLines options.arrayIndicator 1 lines .empty = .error error := hlines
      rw [hread]
      rfl

end SolverLog
