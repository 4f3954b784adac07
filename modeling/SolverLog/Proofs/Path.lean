import Mathlib.Logic.Relation
import SolverLog.Proofs.Assembly

/-!
# Paths in a document

A path says where a dictionary stands in a document. The dictionaries of a store have paths
(`Addressed`), and since each has one holder, a change of one of them is a change of the document at
its path and nowhere else.

* `Addressed.at?_eq` — at the path of a number stands what the number stands for.
* `Addressed.document_put` — setting a key of a dictionary of the store changes the document there.
-/

namespace SolverLog

/-- Where a dictionary stands in a document. -/
inductive Path where
  | globals
  /-- Among the top-level steps. -/
  | step (index : Nat)
  /-- At a key of a dictionary. -/
  | member (parent : Path) (key : String)
  /-- In the list at a key of a dictionary. -/
  | element (parent : Path) (key : String) (index : Nat)
deriving DecidableEq

namespace Node

/-- The dictionary that a node is, if it is one. -/
def dict? : Node → Option Dict
  | dict entries => some entries
  | _ => none

/-- Changes a node that is a dictionary. -/
def changeDict (change : Dict → Dict) : Node → Node
  | dict entries => dict (change entries)
  | node => node

/-- Changes an element of a node that is a list. -/
def changeItem (index : Nat) (change : Dict → Dict) : Node → Node
  | list items => list (items.modify index change)
  | node => node

end Node

/-- Changes what a dictionary holds at a key. -/
def Dict.change (dict : Dict) (key : String) (change : Node → Node) : Dict :=
  dict.map fun entry => if entry.1 = key then (key, change entry.2) else entry

namespace Document

/-- The dictionary at a path, if there is one. -/
def at? (document : Document) : Path → Option Dict
  | .globals => some document.globals
  | .step index => document.steps[index]?
  | .member parent key =>
    (document.at? parent).bind fun dict => (dict.value? key).bind Node.dict?
  | .element parent key index =>
    (document.at? parent).bind fun dict => (dict.value? key).bind fun node => node.items[index]?

/-- Changes the dictionary at a path. -/
def modify (document : Document) : Path → (Dict → Dict) → Document
  | .globals, change => { document with globals := change document.globals }
  | .step index, change => { document with steps := document.steps.modify index change }
  | .member parent key, change =>
    document.modify parent fun dict => dict.change key (Node.changeDict change)
  | .element parent key index, change =>
    document.modify parent fun dict => dict.change key (Node.changeItem index change)

end Document

namespace Builder

variable {s : State}

/-! ## Dictionaries within dictionaries -/

/-- A dictionary is held by another one. -/
def HeldBy (s : State) (child parent : Nat) : Prop :=
  child ∈ numbersOf (s.entries parent)

/-- A dictionary is another one or somewhere within it. -/
def Within (s : State) : Nat → Nat → Prop :=
  Relation.ReflTransGen (HeldBy s)

theorem heldBy_iff {child parent : Nat} :
    HeldBy s child parent ↔ ∃ entry ∈ s.entries parent, child ∈ entry.2.numbers :=
  List.mem_flatMap

/-- Every dictionary but one is put together from what its numbers stand for. -/
def DiffersOnlyAt (s : State) (number : Nat) (find : Nat → Dict) : Prop :=
  ∀ other < s.dicts.size, other ≠ number →
    find other = (s.entries other).map fun entry => (entry.1, entry.2.standsFor find)

namespace Owned

theorem heldBy_lt (h : Owned s) {child parent : Nat} (hheld : HeldBy s child parent) :
    parent < child := by
  rcases heldBy_iff.mp hheld with ⟨entry, hentry, hchild⟩
  exact h.later parent entry hentry child hchild

theorem within_le (h : Owned s) {child parent : Nat} (hwithin : Within s child parent) :
    parent ≤ child := by
  induction hwithin with
  | refl => exact Nat.le_refl child
  | tail _ hheld ih => exact Nat.le_trans (Nat.le_of_lt (h.heldBy_lt hheld)) ih

/-- Only one of the dictionaries that one holds can have a dictionary within it. -/
theorem eq_of_within (h : Owned s) {number a b parent : Nat} (ha : HeldBy s a parent)
    (hb : HeldBy s b parent) (hwithin : Within s number a) (hwithin' : Within s number b) :
    a = b := by
  have hunique : Relator.RightUnique (HeldBy s) := fun _ _ _ hm hn => h.holder_unique hm hn
  -- The one within the other would be within the one that holds both.
  have hnot : ∀ {c d}, HeldBy s c parent → HeldBy s d parent → Within s c d → c = d := by
    intro c d hc hd hcd
    rcases Relation.ReflTransGen.cases_head hcd with heq | ⟨middle, hmiddle, hrest⟩
    · exact heq
    · have hparent : middle = parent := hunique hmiddle hc
      have hle : d ≤ middle := h.within_le hrest
      have hlt : parent < d := h.heldBy_lt hd
      omega
  rcases Relation.ReflTransGen.total_of_right_unique hunique hwithin hwithin' with hab | hba
  · exact hnot ha hb hab
  · exact (hnot hb ha hba).symm

/-- Only one of those that no dictionary holds can have a dictionary within it. -/
theorem eq_of_within_unheld (h : Owned s) {number a b : Nat}
    (ha : ∀ parent, ¬HeldBy s a parent) (hb : ∀ parent, ¬HeldBy s b parent)
    (hwithin : Within s number a) (hwithin' : Within s number b) : a = b := by
  have hunique : Relator.RightUnique (HeldBy s) := fun _ _ _ hm hn => h.holder_unique hm hn
  rcases Relation.ReflTransGen.total_of_right_unique hunique hwithin hwithin' with hab | hba
  · rcases Relation.ReflTransGen.cases_head hab with heq | ⟨parent, hparent, -⟩
    · exact heq
    · exact absurd hparent (ha parent)
  · rcases Relation.ReflTransGen.cases_head hba with heq | ⟨parent, hparent, -⟩
    · exact heq.symm
    · exact absurd hparent (hb parent)

/-- A dictionary is held in one entry only. -/
theorem entry_unique (h : Owned s) {parent child : Nat} {a b : String × Slot}
    (ha : a ∈ s.entries parent) (hb : b ∈ s.entries parent) (hchild : child ∈ a.2.numbers)
    (hchild' : child ∈ b.2.numbers) : a = b := by
  by_contra hne
  have : Std.Symm (Function.onFun List.Disjoint fun entry : String × Slot => entry.2.numbers) :=
    ⟨fun _ _ hab => List.Disjoint.symm hab⟩
  have hdisjoint := (List.nodup_flatMap.mp (h.nodup_numbersOf parent)).2.forall ha hb hne
  exact hdisjoint hchild hchild'

theorem nodup_numbers (h : Owned s) {parent : Nat} {entry : String × Slot}
    (hentry : entry ∈ s.entries parent) : entry.2.numbers.Nodup :=
  (List.nodup_flatMap.mp (h.nodup_numbersOf parent)).1 entry hentry

/-! ## What a change leaves alone -/

/-- If the numbers stand for something else only because of one of them, then those that it is not
within stand for the same. -/
theorem standsFor_same (h : Owned s) {number : Nat} {find : Nat → Dict}
    (hfind : DiffersOnlyAt s number find)
    {other : Nat} (hother : other < s.dicts.size) (hwithin : ¬Within s number other) :
    find other = s.dictOf other := by
  -- The induction goes from the last dictionary down, since holders have smaller numbers.
  induction hsize : s.dicts.size - other using Nat.strong_induction_on generalizing other with
  | _ size ih =>
      have hne : other ≠ number := by
        rintro rfl
        exact hwithin .refl
      rw [hfind other hother hne, h.dictOf_eq other]
      apply List.map_congr_left
      intro entry hentry
      congr 1
      apply Slot.standsFor_congr
      intro child hchild
      have hlater : other < child := h.later other entry hentry child hchild
      have hlt : child < s.dicts.size := h.child_lt hentry hchild
      apply ih (s.dicts.size - child) (by omega) hlt _ rfl
      intro hchild'
      exact hwithin (hchild'.tail (heldBy_iff.mpr ⟨entry, hentry, hchild⟩))

end Owned

/-! ## The paths of the dictionaries of a store -/

/-- The paths of the dictionaries of a store, by number. -/
structure Addressed (s : State) (path : Nat → Path) : Prop where
  globals : path globalsNumber = .globals
  step : ∀ {index number : Nat}, s.steps.toList[index]? = some number → path number = .step index
  member : ∀ {parent : Nat} {key : String} {number : Nat},
    (key, Slot.dict number) ∈ s.entries parent → path number = .member (path parent) key
  element : ∀ {parent : Nat} {key : String} {numbers : List Nat} {index number : Nat},
    (key, Slot.list numbers) ∈ s.entries parent → numbers[index]? = some number →
      path number = .element (path parent) key index

namespace Addressed

variable {path : Nat → Path}

theorem value?_dictOf (h : Owned s) (number : Nat) (key : String) :
    Entries.value? (s.dictOf number) key =
      ((s.entries number).value? key).map (Slot.standsFor s.dictOf) := by
  rw [h.dictOf_eq]
  exact Entries.value?_map _ _ _

/-- At the path of a number stands what the number stands for. -/
theorem at?_eq (ha : Addressed s path) (h : Owned s) {number : Nat} (hnumber : number < s.dicts.size) :
    s.document.at? (path number) = some (s.dictOf number) := by
  -- A path goes through that of the holder, which has a smaller number.
  induction number using Nat.strong_induction_on with
  | _ number ih =>
      rcases h.holder hnumber with rfl | ⟨parent, ⟨key, slot⟩, hentry, hchild⟩ | hstep
      · rw [ha.globals, State.document_eq h, Document.at?]
      · have hparent : parent < number := h.later parent _ hentry number hchild
        have hat := ih parent hparent (by omega)
        have hvalue : Entries.value? (s.dictOf parent) key = some (slot.standsFor s.dictOf) := by
          rw [value?_dictOf h, Entries.value?_of_mem (h.nodup_keys parent) hentry]
          rfl
        cases slot with
        | value held => simp at hchild
        | dict child =>
            have heq : number = child := by simpa using hchild
            subst heq
            rw [ha.member hentry, Document.at?, hat, Option.bind_some, hvalue]
            rfl
        | list numbers =>
            rcases List.mem_iff_getElem?.mp hchild with ⟨index, hindex⟩
            rw [ha.element hentry hindex, Document.at?, hat, Option.bind_some, hvalue]
            simp only [Option.bind_some, Slot.standsFor, Node.items, List.getElem?_map]
            rw [Slot.numbers_list] at hindex
            rw [hindex]
            rfl
      · rcases List.mem_iff_getElem?.mp hstep with ⟨index, hindex⟩
        rw [ha.step hindex, State.document_eq h, Document.at?, List.getElem?_map, hindex]
        rfl

/-- A dictionary that changes at one of its keys only. -/
theorem map_standsFor_eq_change (h : Owned s) {parent : Nat} {key : String} {slot : Slot}
    (hentry : (key, slot) ∈ s.entries parent) {find : Nat → Dict} {change : Node → Node}
    (hkey : slot.standsFor find = change (slot.standsFor s.dictOf))
    (hrest : ∀ entry ∈ s.entries parent, entry ≠ (key, slot) →
      entry.2.standsFor find = entry.2.standsFor s.dictOf) :
    ((s.entries parent).map fun entry => (entry.1, entry.2.standsFor find)) =
      Dict.change (s.dictOf parent) key change := by
  rw [h.dictOf_eq, Dict.change, List.map_map]
  apply List.map_congr_left
  intro entry hmem
  have hvalue : ∀ {entry : String × Slot}, entry ∈ s.entries parent →
      (s.entries parent).value? entry.1 = some entry.2 :=
    fun hentry => Entries.value?_of_mem (h.nodup_keys parent) hentry
  by_cases heq : entry = (key, slot)
  · subst heq
    simp [hkey]
  · -- No key is there twice, so another entry has another key.
    have hne : entry.1 ≠ key := by
      intro hsame
      have hslot : some entry.2 = some slot := by
        rw [← hvalue hmem, hsame]
        exact hvalue hentry
      exact heq (Prod.ext hsame (Option.some.inj hslot))
    simp [hne, hrest entry hmem heq]

/-- A list of dictionaries in which one changes. -/
theorem map_eq_modify {numbers : List Nat} (hnodup : numbers.Nodup) {index other : Nat}
    (hindex : numbers[index]? = some other) {find old : Nat → Dict} {change : Dict → Dict}
    (hother : find other = change (old other))
    (hrest : ∀ number ∈ numbers, number ≠ other → find number = old number) :
    numbers.map find = (numbers.map old).modify index change := by
  apply List.ext_getElem?
  intro i
  rw [List.getElem?_map, List.getElem?_modify, List.getElem?_map]
  by_cases hi : index = i
  · subst hi
    simp [hindex, hother]
  · cases hnumber : numbers[i]? with
    | none => simp
    | some number =>
        -- No number is there twice, so another place has another number.
        have hne : number ≠ other := by
          rintro rfl
          have hlt : index < numbers.length := (List.getElem?_eq_some_iff.mp hindex).1
          exact hi ((List.getElem?_inj hlt hnodup).mp (hindex.trans hnumber.symm))
        simp [hi, hrest number (List.mem_of_getElem? hnumber) hne]

/-- A change within a dictionary is one at the entry that holds it. -/
theorem modify_held (ha : Addressed s path) (h : Owned s) {number : Nat} {find : Nat → Dict}
    (hfind : DiffersOnlyAt s number find)
    {other parent : Nat} {entry : String × Slot} (hentry : entry ∈ s.entries parent)
    (hchild : other ∈ entry.2.numbers) (hwithin : Within s number other) {change : Dict → Dict}
    (hchange : find other = change (s.dictOf other)) :
    ∃ change', s.document.modify (path other) change = s.document.modify (path parent) change' ∧
      find parent = change' (s.dictOf parent) := by
  rcases entry with ⟨key, slot⟩
  have hheld : HeldBy s other parent := heldBy_iff.mpr ⟨_, hentry, hchild⟩
  have hlt : parent < other := h.heldBy_lt hheld
  have hle : other ≤ number := h.within_le hwithin
  have hsize : other < s.dicts.size := h.child_lt hentry hchild
  -- Its siblings stand for the same as before, since what changes is not within them.
  have hsibling : ∀ sibling, HeldBy s sibling parent → sibling ≠ other →
      find sibling = s.dictOf sibling := by
    intro sibling hsibling hdistinct
    rcases heldBy_iff.mp hsibling with ⟨entry, hmem, hnumber⟩
    apply h.standsFor_same hfind (h.child_lt hmem hnumber)
    intro hwithin'
    exact hdistinct (h.eq_of_within hsibling hheld hwithin' hwithin)
  have hrest : ∀ entry ∈ s.entries parent, entry ≠ (key, slot) →
      entry.2.standsFor find = entry.2.standsFor s.dictOf := by
    intro entry hmem hdistinct
    apply Slot.standsFor_congr
    intro sibling hnumber
    apply hsibling sibling (heldBy_iff.mpr ⟨entry, hmem, hnumber⟩)
    rintro rfl
    exact hdistinct (h.entry_unique hmem hentry hnumber hchild)
  have hparent := hfind parent (by omega) (by omega)
  cases slot with
  | value held => simp at hchild
  | dict child =>
      have heq : other = child := by simpa using hchild
      subst heq
      refine ⟨fun dict => dict.change key (Node.changeDict change), ?_, ?_⟩
      · rw [ha.member hentry, Document.modify]
      · rw [hparent]
        apply map_standsFor_eq_change h hentry _ hrest
        rw [Slot.standsFor, hchange]
        rfl
  | list numbers =>
      rcases List.mem_iff_getElem?.mp hchild with ⟨index, hindex⟩
      refine ⟨fun dict => dict.change key (Node.changeItem index change), ?_, ?_⟩
      · rw [ha.element hentry hindex, Document.modify]
      · rw [hparent]
        apply map_standsFor_eq_change h hentry _ hrest
        have hitems : numbers.map find = (numbers.map s.dictOf).modify index change := by
          apply map_eq_modify (h.nodup_numbers hentry) hindex hchange
          intro sibling hnumber hdistinct
          exact hsibling sibling (heldBy_iff.mpr ⟨_, hentry, hnumber⟩) hdistinct
        rw [Slot.standsFor, Slot.standsFor, Node.changeItem, hitems]

/-- A change within the globals leaves the steps alone. -/
theorem document_modify_globals (ha : Addressed s path) (h : Owned s) {number : Nat}
    {find : Nat → Dict}
    (hfind : DiffersOnlyAt s number find)
    (hwithin : Within s number globalsNumber) {change : Dict → Dict}
    (hchange : find globalsNumber = change (s.dictOf globalsNumber)) :
    ({ globals := find globalsNumber, steps := s.steps.toList.map find } : Document) =
      s.document.modify (path globalsNumber) change := by
  rw [ha.globals, State.document_eq h, Document.modify, hchange]
  congr 1
  apply List.map_congr_left
  intro step hstep
  apply h.standsFor_same hfind (h.step_lt hstep)
  intro hwithin'
  have heq : globalsNumber = step := h.eq_of_within_unheld
    (fun parent => h.globals_not_mem_numbersOf parent)
    (fun parent => h.not_mem_numbersOf_of_mem_steps hstep parent) hwithin hwithin'
  exact h.globals_not_mem_steps (heq ▸ hstep)

/-- A change within a top-level step leaves the globals and the other steps alone. -/
theorem document_modify_step (ha : Addressed s path) (h : Owned s) {number : Nat}
    {find : Nat → Dict}
    (hfind : DiffersOnlyAt s number find)
    {step : Nat} (hstep : step ∈ s.steps.toList) (hwithin : Within s number step)
    {change : Dict → Dict} (hchange : find step = change (s.dictOf step)) :
    ({ globals := find globalsNumber, steps := s.steps.toList.map find } : Document) =
      s.document.modify (path step) change := by
  rcases List.mem_iff_getElem?.mp hstep with ⟨index, hindex⟩
  have hunheld : ∀ step ∈ s.steps.toList, ∀ parent, ¬HeldBy s step parent :=
    fun step hstep parent => h.not_mem_numbersOf_of_mem_steps hstep parent
  have hglobals : find globalsNumber = s.dictOf globalsNumber := by
    apply h.standsFor_same hfind h.size_pos
    intro hwithin'
    have heq : globalsNumber = step := h.eq_of_within_unheld
      (fun parent => h.globals_not_mem_numbersOf parent) (hunheld step hstep) hwithin' hwithin
    exact h.globals_not_mem_steps (heq ▸ hstep)
  have hsteps : s.steps.toList.map find = (s.steps.toList.map s.dictOf).modify index change := by
    apply map_eq_modify h.nodup_steps hindex hchange
    intro other hmem hne
    apply h.standsFor_same hfind (h.step_lt hmem)
    intro hwithin'
    exact hne (h.eq_of_within_unheld (hunheld other hmem) (hunheld step hstep) hwithin' hwithin)
  rw [ha.step hindex, State.document_eq h, Document.modify, hglobals, hsteps]

/-- If the numbers stand for something else only because of one of them, then the document changes at
the path of that one. -/
theorem document_modify_of_within (ha : Addressed s path) (h : Owned s) {number : Nat}
    {find : Nat → Dict}
    (hfind : DiffersOnlyAt s number find)
    {other : Nat} (hother : other < s.dicts.size) (hwithin : Within s number other)
    {change : Dict → Dict} (hchange : find other = change (s.dictOf other)) :
    ({ globals := find globalsNumber, steps := s.steps.toList.map find } : Document) =
      s.document.modify (path other) change := by
  -- The change goes up from holder to holder, to the globals or to a top-level step.
  induction other using Nat.strong_induction_on generalizing change with
  | _ other ih =>
      rcases h.holder hother with rfl | ⟨parent, entry, hentry, hchild⟩ | hstep
      · exact ha.document_modify_globals h hfind hwithin hchange
      · have hheld : HeldBy s other parent := heldBy_iff.mpr ⟨_, hentry, hchild⟩
        have hlt : parent < other := h.heldBy_lt hheld
        rcases ha.modify_held h hfind hentry hchild hwithin hchange with
          ⟨change', hmodify, hparent⟩
        rw [hmodify]
        exact ih parent hlt (by omega) (hwithin.tail hheld) hparent
      · exact ha.document_modify_step h hfind hstep hwithin hchange

/-! ## Setting a key of a dictionary of the store -/

/-- What the numbers stand for before and after a key of a dictionary is set. -/
theorem standsFor_put (h : Owned s) {s' : State} (h' : Owned s') {number : Nat} {key : String}
    {slot : Slot} (hput : s'.entries number = (s.entries number).put key slot)
    (hrest : ∀ other < s.dicts.size, other ≠ number → s'.entries other = s.entries other) :
    DiffersOnlyAt s number s'.dictOf ∧
      s'.dictOf number = Entries.put (s.dictOf number) key (slot.standsFor s'.dictOf) := by
  have hfind : DiffersOnlyAt s number s'.dictOf := by
    intro other hother hne
    rw [h'.dictOf_eq, hrest other hother hne]
  refine ⟨hfind, ?_⟩
  rw [h'.dictOf_eq, hput, h.dictOf_eq, Entries.map_put]
  congr 1
  apply List.map_congr_left
  intro entry hentry
  congr 1
  apply Slot.standsFor_congr
  -- The other entries hold greater numbers, so the change is not within them.
  intro child hchild
  apply h.standsFor_same hfind (h.child_lt hentry hchild)
  intro hwithin
  have hlater : number < child := h.later number entry hentry child hchild
  have hle : child ≤ number := h.within_le hwithin
  omega

/-- Setting a key of a dictionary of the store changes the document at the path of that one. -/
theorem document_put (ha : Addressed s path) (h : Owned s) {s' : State} (h' : Owned s')
    {number : Nat} (hnumber : number < s.dicts.size) {key : String} {slot : Slot}
    (hput : s'.entries number = (s.entries number).put key slot)
    (hrest : ∀ other < s.dicts.size, other ≠ number → s'.entries other = s.entries other)
    (hsteps : s'.steps = s.steps) {change : Dict → Dict}
    (hchange : Entries.put (s.dictOf number) key (slot.standsFor s'.dictOf) =
      change (s.dictOf number)) :
    s'.document = s.document.modify (path number) change := by
  rcases standsFor_put h h' hput hrest with ⟨hfind, hset⟩
  rw [State.document_eq h', hsteps]
  exact ha.document_modify_of_within h hfind hnumber .refl (hset.trans hchange)

end Addressed

end Builder

end SolverLog
