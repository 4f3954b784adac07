import SolverLog.Proofs.Course
import SolverLog.Proofs.Refinement
import SolverLog.Proofs.Visits

/-!
# Stamps of dictionaries

A stamp is the value that a dictionary has at a fixed key. A log that sets that key on the records
that begin steps, and on no others, stamps the steps and nothing else.

* `entries_sets` — the entries after fields are set.
* `levelLists_put` — the lists of fast steps after one of them grows.
* `stamp_begins`, `RecordStep.stamp_other` — the stamps after a record.
-/

namespace SolverLog

namespace Builder

open History (isTimeLevelKey)

/-- The value that a slot is, if it is one. -/
def Slot.value? : Slot → Option Value
  | value held => some held
  | _ => none

/-- The value that a dictionary has at a key. -/
def State.stamp (s : State) (key : String) (number : Nat) : Option Value :=
  ((s.entries number).value? key).bind Slot.value?

/-- Whether a dictionary has a value at a key. -/
def State.stamped (s : State) (key : String) (number : Nat) : Bool :=
  (s.stamp key number).isSome

variable {line : Nat} {s s' : State}

/-- The entries after fields are set. -/
theorem entries_sets {fields : Payload} (h : Owned s)
    (hrun : run line (Move.sets fields) s = .reached s') :
    s'.dicts.size = s.dicts.size ∧ ∀ number, s'.entries number =
      s.entries number ++
        if number = s.current then fields.map fun field => (field.1, .value field.2) else [] := by
  induction fields generalizing s with
  | nil =>
      cases hrun
      simp
  | cons field rest ih =>
      -- A key that is set is new, so it goes to the end.
      rcases run_cons_reached hrun with ⟨middle, hset, hrest⟩
      have howned : Owned middle := h.step hset
      rcases ih howned hrest with ⟨hsize, hentries⟩
      cases hset with
      | set hnew =>
          have hcurrent : (s.set s.current field.1 (.value field.2)).current = s.current := rfl
          refine ⟨by rw [hsize, State.size_set], ?_⟩
          intro number
          rw [hentries, hcurrent, s.entries_set h.current_lt]
          by_cases hnumber : number = s.current
          · subst hnumber
            simp [Entries.put_of_value?_eq_none _ hnew]
          · simp [hnumber]

/-! ## Lists of fast steps -/

/-- The list of fast steps that an entry is, with whether a stamped dictionary is in it. -/
def levelList? (stamped : Nat → Bool) : String × Slot → Option (String × Bool)
  | (key, .list numbers) => if isTimeLevelKey key then some (key, numbers.any stamped) else none
  | (_, .value _) => none
  | (_, .dict _) => none

/-- The lists of fast steps of a dictionary, with whether a stamped dictionary is in them. -/
def levelLists (stamped : Nat → Bool) (entries : Entries Slot) : Entries Bool :=
  entries.filterMap (levelList? stamped)

theorem levelLists_cons (stamped : Nat → Bool) (entry : String × Slot) (rest : Entries Slot) :
    levelLists stamped (entry :: rest) =
      (levelList? stamped entry).toList ++ levelLists stamped rest := by
  unfold levelLists
  rw [List.filterMap_cons]
  cases levelList? stamped entry <;> rfl

/-- A key that is not of a time level is no matter. -/
theorem flatMap_put_of_other {key : String} (hkey : isTimeLevelKey key = false)
    (entries : Entries Slot) (slot : Slot) :
    (entries.put key slot).flatMap levelElements = entries.flatMap levelElements := by
  have hnone : ∀ slot, levelElements (key, slot) = [] := by
    intro slot
    simp [levelElements, hkey]
  induction entries with
  | nil => simp [Entries.put, hnone]
  | cons entry rest ih =>
      rcases entry with ⟨other, old⟩
      by_cases hother : other = key
      · subst hother
        simp [Entries.put, hnone]
      · simp [Entries.put, hother, ih]

theorem levelLists_put_of_other {key : String} (hkey : isTimeLevelKey key = false)
    (stamped : Nat → Bool) (entries : Entries Slot) (slot : Slot) :
    levelLists stamped (entries.put key slot) = levelLists stamped entries := by
  have hnone : ∀ slot, levelList? stamped (key, slot) = none := by
    intro slot
    cases slot <;> simp [levelList?, hkey]
  induction entries with
  | nil => simp [Entries.put, levelLists_cons, hnone]
  | cons entry rest ih =>
      rcases entry with ⟨other, old⟩
      by_cases hother : other = key
      · subst hother
        simp [Entries.put, levelLists_cons, hnone]
      · simp [Entries.put, hother, levelLists_cons, ih]

/-- No stamped dictionary is in the lists of fast steps. -/
theorem all_levelLists_iff (stamped : Nat → Bool) (entries : Entries Slot) :
    ((levelLists stamped entries).all fun entry => !entry.2) = true ↔
      ∀ child ∈ entries.flatMap levelElements, stamped child = false := by
  induction entries with
  | nil => simp [levelLists]
  | cons entry rest ih =>
      rcases entry with ⟨key, slot⟩
      rw [levelLists_cons, List.all_append, Bool.and_eq_true, ih, List.flatMap_cons]
      simp only [List.mem_append, or_imp, forall_and]
      apply and_congr_left'
      cases slot with
      | value held => simp [levelList?, levelElements, Slot.elements]
      | dict number => simp [levelList?, levelElements, Slot.elements]
      | list numbers =>
          cases hkey : isTimeLevelKey key <;> simp [levelList?, levelElements, Slot.elements, hkey]

/-- Only the stamps of what is nested matter for the lists of fast steps. -/
theorem levelLists_congr {f g : Nat → Bool} {entries : Entries Slot}
    (h : ∀ child ∈ entries.flatMap levelElements, f child = g child) :
    levelLists f entries = levelLists g entries := by
  induction entries with
  | nil => rfl
  | cons entry rest ih =>
      rcases entry with ⟨key, slot⟩
      rw [List.flatMap_cons] at h
      rw [levelLists_cons, levelLists_cons, ih fun child hchild => h child (List.mem_append_right _ hchild)]
      congr 2
      cases slot with
      | value held => rfl
      | dict number => rfl
      | list numbers =>
          cases hkey : isTimeLevelKey key with
          | false => simp [levelList?, hkey]
          | true =>
              have hsame : ∀ child ∈ numbers, f child = g child := by
                intro child hchild
                apply h child (List.mem_append_left _ _)
                simpa [levelElements, hkey, Slot.elements] using hchild
              have hany : numbers.any f = numbers.any g := by
                rw [Bool.eq_iff_iff, List.any_eq_true, List.any_eq_true]
                refine exists_congr fun child => and_congr_right fun hchild => ?_
                rw [hsame child hchild]
              simp [levelList?, hkey, hany]

/-- A list of fast steps that grows, and the lists that come after it. -/
theorem flatMap_put {key : String} (hkey : isTimeLevelKey key = true) (stamped : Nat → Bool)
    {entries : Entries Slot} {numbers : List Nat}
    (hold : entries.value? key = some (.list numbers) ∨
      entries.value? key = none ∧ numbers = []) (child : Nat) :
    ∃ before after, entries.flatMap levelElements = before ++ after ∧
      (entries.put key (.list (numbers ++ [child]))).flatMap levelElements =
        before ++ child :: after ∧
      (isLastList (levelLists stamped entries) key = true ↔
        ∀ other ∈ after, stamped other = false) := by
  induction entries with
  | nil =>
      have hnumbers : numbers = [] := by simpa [Entries.value?] using hold
      refine ⟨[], [], rfl, ?_, by simp [isLastList, levelLists]⟩
      simp [Entries.put, levelElements, hkey, Slot.elements, hnumbers]
  | cons entry rest ih =>
      rcases entry with ⟨other, old⟩
      by_cases hother : other = key
      · subst hother
        have hslot : old = .list numbers := by simpa [Entries.value?] using hold
        subst hslot
        refine ⟨numbers, rest.flatMap levelElements, ?_, ?_, ?_⟩
        · simp [levelElements, hkey, Slot.elements]
        · simp [Entries.put, levelElements, hkey, Slot.elements]
        · have hlast : isLastList
              (levelLists stamped ((other, .list numbers) :: rest)) other =
                (levelLists stamped rest).all fun entry => !entry.2 := by
            simp [levelLists_cons, levelList?, hkey, isLastList]
          rw [hlast]
          exact all_levelLists_iff stamped rest
      · -- Lists before that of the key are before the new element too.
        have hrest : Entries.value? rest key = some (.list numbers) ∨
            Entries.value? rest key = none ∧ numbers = [] := by
          simpa [Entries.value?, hother] using hold
        rcases ih hrest with ⟨before, after, hentries, hput, hlast⟩
        refine ⟨levelElements (other, old) ++ before, after, ?_, ?_, ?_⟩
        · rw [List.flatMap_cons, hentries, List.append_assoc]
        · simp [Entries.put, hother, hput]
        · rw [← hlast, levelLists_cons]
          cases hlist : levelList? stamped (other, old) with
          | none => rfl
          | some entry =>
              have hname : entry.1 = other := by
                cases old <;> simp [levelList?] at hlist
                rw [← hlist.2]
              simp [isLastList, hname, hother]

/-- The lists of fast steps after one of them grows. -/
theorem levelLists_put {key : String} (hkey : isTimeLevelKey key = true) (stamped : Nat → Bool)
    {entries : Entries Slot} {numbers : List Nat}
    (hold : entries.value? key = some (.list numbers) ∨
      entries.value? key = none ∧ numbers = []) (child : Nat) :
    levelLists stamped (entries.put key (.list (numbers ++ [child]))) =
        (levelLists stamped entries).put key (numbers.any stamped || stamped child) ∧
      ((levelLists stamped entries).value? key).getD false = numbers.any stamped := by
  induction entries with
  | nil =>
      have hnumbers : numbers = [] := by simpa [Entries.value?] using hold
      simp [Entries.put, Entries.value?, levelLists, levelList?, hkey, hnumbers]
  | cons entry rest ih =>
      rcases entry with ⟨other, old⟩
      by_cases hother : other = key
      · subst hother
        have hslot : old = .list numbers := by simpa [Entries.value?] using hold
        subst hslot
        simp [Entries.put, Entries.value?, levelLists_cons, levelList?, hkey]
      · have hrest : Entries.value? rest key = some (.list numbers) ∨
            Entries.value? rest key = none ∧ numbers = [] := by
          simpa [Entries.value?, hother] using hold
        rcases ih hrest with ⟨hput, hvalue⟩
        rw [Entries.put, if_neg hother, levelLists_cons, levelLists_cons, hput]
        cases hlist : levelList? stamped (other, old) with
        | none => exact ⟨rfl, hvalue⟩
        | some entry =>
            rcases entry with ⟨name, flag⟩
            have hname : name = other := by
              cases old <;> simp [levelList?] at hlist
              exact hlist.2.1.symm
            subst hname
            simp [Entries.put, Entries.value?, hother, hvalue]

/-! ## After fields are set -/

theorem levelElements_eq_nil {entry : String × Slot} (h : entry.2.numbers = []) :
    levelElements entry = [] := by
  have hsub := levelElements_sublist entry
  rw [h] at hsub
  exact List.sublist_nil.mp hsub

theorem flatMap_levelElements_eq_nil {fresh : Entries Slot}
    (hfresh : ∀ entry ∈ fresh, entry.2.numbers = []) : fresh.flatMap levelElements = [] := by
  rw [List.flatMap_eq_nil_iff]
  intro entry hentry
  exact levelElements_eq_nil (hfresh entry hentry)

theorem numbers_fields (fields : Payload) :
    ∀ entry ∈ fields.map fun field => (field.1, Slot.value field.2), entry.2.numbers = [] := by
  intro entry hentry
  rcases List.mem_map.mp hentry with ⟨field, -, rfl⟩
  rfl

theorem levelLists_fields (stamped : Nat → Bool) (fields : Payload) :
    levelLists stamped (fields.map fun field => (field.1, Slot.value field.2)) = [] := by
  unfold levelLists
  rw [List.filterMap_map, List.filterMap_eq_nil_iff]
  intro field _
  rfl

/-- Fields are no matter for what is nested. -/
theorem nested_sets {fields : Payload} (h : Owned s)
    (hrun : run line (Move.sets fields) s = .reached s') (number : Nat) :
    s'.nested number = s.nested number := by
  unfold State.nested
  rw [(entries_sets h hrun).2 number, List.flatMap_append]
  split
  · rw [flatMap_levelElements_eq_nil (numbers_fields fields), List.append_nil]
  · exact List.append_nil _

/-- Fields are no matter for the lists of fast steps. -/
theorem levelLists_sets {fields : Payload} (h : Owned s)
    (hrun : run line (Move.sets fields) s = .reached s') (stamped : Nat → Bool) (number : Nat) :
    levelLists stamped (s'.entries number) = levelLists stamped (s.entries number) := by
  have happend : ∀ first second, levelLists stamped (first ++ second) =
      levelLists stamped first ++ levelLists stamped second :=
    fun first second => List.filterMap_append ..
  rw [(entries_sets h hrun).2 number, happend]
  split
  · rw [levelLists_fields, List.append_nil]
  · exact List.append_nil _

/-- The stamps after fields are set. -/
theorem stamp_sets {fields : Payload} (h : Owned s)
    (hrun : run line (Move.sets fields) s = .reached s') (key : String) (number : Nat) :
    s'.stamp key number =
      if number = s.current then
        (((s.entries number).value? key).or ((fields.value? key).map .value)).bind Slot.value?
      else s.stamp key number := by
  unfold State.stamp
  rw [(entries_sets h hrun).2 number]
  split
  · rw [Entries.value?_append, Entries.value?_map]
  · rw [List.append_nil]

theorem stamp_sets_of_none {fields : Payload} (h : Owned s)
    (hrun : run line (Move.sets fields) s = .reached s') {key : String}
    (hkey : fields.value? key = none) (number : Nat) : s'.stamp key number = s.stamp key number := by
  rw [stamp_sets h hrun, hkey]
  split
  · rw [Option.map_none, Option.or_none]
    rfl
  · rfl

/-! ## After a dictionary is added -/

/-- The entries after a dictionary is added. -/
theorem entries_addAt (fresh : Entries Slot) {place : Place}
    (hparent : ∀ parent, place.parent? = some parent → parent < s.dicts.size) :
    (s.addAt fresh place).entries s.dicts.size = fresh ∧
      ∀ other, other ≠ s.dicts.size → place.parent? ≠ some other →
        (s.addAt fresh place).entries other = s.entries other := by
  cases place with
  | topLevel =>
      have hentries : ∀ other, (s.addAt fresh .topLevel).entries other =
          if other = s.dicts.size then fresh else s.entries other := s.entries_add fresh
      refine ⟨by rw [hentries, if_pos rfl], ?_⟩
      intro other hother _
      rw [hentries, if_neg hother]
  | member parent key =>
      obtain ⟨-, hnew, hrest⟩ :=
        State.entries_add_set fresh (hparent parent rfl) key (.dict s.dicts.size)
      refine ⟨hnew, ?_⟩
      intro other hother hne
      exact hrest other (fun heq => hne (heq ▸ rfl)) hother
  | element parent key =>
      obtain ⟨-, hnew, hrest⟩ := State.entries_add_set fresh (hparent parent rfl) key
        (.list (s.elements parent key ++ [s.dicts.size]))
      refine ⟨hnew, ?_⟩
      intro other hother hne
      exact hrest other (fun heq => hne (heq ▸ rfl)) hother

/-- The slot that a place of a dictionary is set to when one is added there. -/
theorem entries_addAt_parent (fresh : Entries Slot) {place : Place} {parent : Nat}
    (hplace : place.parent? = some parent) (hparent : parent < s.dicts.size)
    (hfree : s.vacancy place = .free) :
    ∃ slot, Slot.value? slot = none ∧
      (s.addAt fresh place).entries parent = (s.entries parent).put place.key slot ∧
      ((s.entries parent).value? place.key).bind Slot.value? = none := by
  cases place with
  | topLevel => cases hplace
  | member holder key =>
      cases hplace
      refine ⟨.dict s.dicts.size, rfl, (State.entries_add_set fresh hparent key _).1, ?_⟩
      show ((s.entries parent).value? key).bind Slot.value? = none
      rw [State.value?_of_free_member hfree]
      rfl
  | element holder key =>
      cases hplace
      refine ⟨.list (s.elements parent key ++ [s.dicts.size]), rfl,
        (State.entries_add_set fresh hparent key _).1, ?_⟩
      show ((s.entries parent).value? key).bind Slot.value? = none
      rcases State.value?_of_free_element hfree with hnone | ⟨numbers, hlist⟩
      · rw [hnone]
        rfl
      · rw [hlist]
        rfl

/-- The stamps after a dictionary is added. -/
theorem stamp_addAt (fresh : Entries Slot) {place : Place}
    (hparent : ∀ parent, place.parent? = some parent → parent < s.dicts.size)
    (hfree : s.vacancy place = .free) (key : String) :
    (s.addAt fresh place).stamp key s.dicts.size = (fresh.value? key).bind Slot.value? ∧
      ∀ number < s.dicts.size, (s.addAt fresh place).stamp key number = s.stamp key number := by
  rcases entries_addAt fresh hparent with ⟨hnew, hrest⟩
  unfold State.stamp
  refine ⟨by rw [hnew], ?_⟩
  intro number hnumber
  -- The parent gets a list or a dictionary, and at a key that had no value.
  by_cases hplace : place.parent? = some number
  · rcases entries_addAt_parent fresh hplace hnumber hfree with ⟨slot, hslot, hput, hold⟩
    rw [hput, Entries.value?_put]
    split
    · next hkey =>
        rw [← hkey, hold]
        exact hslot
    · rfl
  · rw [hrest number (by omega) hplace]

/-- A new dictionary has nothing nested. -/
theorem nested_addAt_size (fresh : Entries Slot) {place : Place}
    (hparent : ∀ parent, place.parent? = some parent → parent < s.dicts.size)
    (hfresh : ∀ entry ∈ fresh, entry.2.numbers = []) :
    (s.addAt fresh place).nested s.dicts.size = [] := by
  unfold State.nested
  rw [(entries_addAt fresh hparent).1]
  exact flatMap_levelElements_eq_nil hfresh

/-- A dictionary that is added elsewhere than in a list of fast steps. -/
theorem levels_addAt_of_other {fresh : Entries Slot} {place : Place}
    (hparent : ∀ parent, place.parent? = some parent → parent < s.dicts.size)
    (hfree : s.vacancy place = .free)
    (hother : ∀ parent key, place = .element parent key → isTimeLevelKey key = false) {number : Nat}
    (hnumber : number < s.dicts.size) :
    (s.addAt fresh place).nested number = s.nested number ∧
      ∀ stamped, levelLists stamped ((s.addAt fresh place).entries number) =
        levelLists stamped (s.entries number) := by
  unfold State.nested
  by_cases hplace : place.parent? = some number
  · cases place with
    | topLevel => cases hplace
    | member parent key =>
        cases hplace
        have hput := (State.entries_add_set fresh hnumber key (.dict s.dicts.size)).1
        rw [Entries.put_of_value?_eq_none _ (State.value?_of_free_member hfree)] at hput
        have hentries : (s.addAt fresh (.member number key)).entries number =
            s.entries number ++ [(key, .dict s.dicts.size)] := hput
        rw [hentries]
        constructor
        · simp [levelElements, Slot.elements]
        · intro stamped
          simp [levelLists, levelList?]
    | element parent key =>
        cases hplace
        have hkey : isTimeLevelKey key = false := hother number key rfl
        have hput : (s.addAt fresh (.element number key)).entries number =
            (s.entries number).put key (.list (s.elements number key ++ [s.dicts.size])) :=
          (State.entries_add_set fresh hnumber key _).1
        rw [hput]
        refine ⟨flatMap_put_of_other hkey _ _, ?_⟩
        intro stamped
        exact levelLists_put_of_other hkey stamped _ _
  · rw [(entries_addAt fresh hparent).2 number (by omega) hplace]
    exact ⟨rfl, fun _ => rfl⟩

/-- A dictionary that is added in a list of fast steps: what is nested before and after it, and the
lists of fast steps then. -/
theorem levels_addAt_element {fresh : Entries Slot} {parent : Nat} {key : String}
    (hparent : parent < s.dicts.size) (hfree : s.vacancy (.element parent key) = .free)
    (hkey : isTimeLevelKey key = true) (stamped : Nat → Bool) :
    (∃ before after, s.nested parent = before ++ after ∧
      (s.addAt fresh (.element parent key)).nested parent = before ++ s.dicts.size :: after ∧
      (isLastList (levelLists stamped (s.entries parent)) key = true ↔
        ∀ other ∈ after, stamped other = false)) ∧
    levelLists stamped ((s.addAt fresh (.element parent key)).entries parent) =
      Entries.put (levelLists stamped (s.entries parent)) key
        ((Entries.value? (levelLists stamped (s.entries parent)) key).getD false ||
          stamped s.dicts.size) := by
  have hput : (s.addAt fresh (.element parent key)).entries parent =
      (s.entries parent).put key (.list (s.elements parent key ++ [s.dicts.size])) :=
    (State.entries_add_set fresh hparent key _).1
  have hold : (s.entries parent).value? key = some (.list (s.elements parent key)) ∨
      (s.entries parent).value? key = none ∧ s.elements parent key = [] := by
    unfold State.elements
    rcases State.value?_of_free_element hfree with hnone | ⟨numbers, hlist⟩
    · simp [hnone]
    · simp [hlist]
  rcases levelLists_put hkey stamped hold s.dicts.size with ⟨hlists, hvalue⟩
  unfold State.nested
  rw [hput, hlists, hvalue]
  exact ⟨flatMap_put hkey stamped hold s.dicts.size, rfl⟩

/-! ## After a record -/

theorem stamp_of_size_le {number : Nat} (hnumber : s.dicts.size ≤ number) (key : String) :
    s.stamp key number = none := by
  unfold State.stamp
  rw [State.entries_of_size_le hnumber]
  rfl

theorem value?_newEntries {opened : Section} {key : String} (hkey : key ≠ Step.levelKey) :
    (s.newEntries opened).value? key = none := by
  cases opened with
  | plain name => rfl
  | entry list => rfl
  | step => simp [State.newEntries, Entries.value?, Ne.symm hkey]

/-- Opening a section stamps nothing. -/
theorem stamp_enter (h : Owned s) {opened : Section} (henter : Transition line s (.enter opened) s')
    {key : String} (hkey : key ≠ Step.levelKey) (number : Nat) :
    s'.stamp key number = s.stamp key number := by
  cases henter with
  | enterAgain => rfl
  | enterNew hfree =>
      obtain ⟨hnew, hold⟩ := stamp_addAt (s.newEntries opened)
        (fun parent hparent => h.parent_lt hparent) hfree key
      show (s.addAt (s.newEntries opened) (s.place opened)).stamp key number = _
      rcases Nat.lt_trichotomy number s.dicts.size with hlt | rfl | hgt
      · exact hold number hlt
      · rw [hnew, value?_newEntries hkey, stamp_of_size_le (Nat.le_refl _)]
        rfl
      · rw [stamp_of_size_le (Nat.le_of_lt hgt), stamp_of_size_le]
        rw [State.size_addAt]
        omega

/-- A step that is opened gets a new dictionary. -/
theorem enterNew_of_step (henter : Transition line s (.enter .step) s') :
    s.vacancy (s.place .step) = .free ∧
      s' = (s.addAt (s.newEntries .step) (s.place .step)).enter line .step s.dicts.size := by
  cases henter with
  | enterNew hfree => exact ⟨hfree, rfl⟩
  | enterAgain hheld =>
      rcases State.value?_of_held hheld with ⟨parent, key, hplace, -⟩
      have hplain := State.eq_plain_of_place hplace
      cases hplain

variable {record : Record} {key : String}

/-- What a record does to the stamps, unless it begins a step. -/
theorem RecordStep.stamp_other (h : Owned s) (hkey : key ≠ Step.levelKey)
    (hstep : RecordStep line record s s') (hpayload : record.payload.value? key = none)
    (number : Nat) : s'.stamp key number = s.stamp key number := by
  cases hstep with
  | remark _ hsets => exact stamp_sets_of_none h hsets hpayload number
  | opens _ henter hsets =>
      rw [stamp_sets_of_none (h.step henter) hsets hpayload, stamp_enter h henter hkey]
  | closes _ _ _ hsets hleave =>
      rw [hleave]
      exact stamp_sets_of_none h hsets hpayload number
  | beginsFastSteps _ hsets hfast =>
      rw [hfast]
      exact stamp_sets_of_none h hsets hpayload number
  | endsFastSteps _ _ hsets hfast =>
      rw [hfast]
      exact stamp_sets_of_none h hsets hpayload number

/-- A record that begins a step stamps the new dictionary. -/
theorem stamp_begins (h : Owned s) (hkey : key ≠ Step.levelKey) {entered : State} {fields : Payload}
    (henter : Transition line s (.enter .step) entered)
    (hsets : run line (Move.sets fields) entered = .reached s') :
    s'.stamp key s.dicts.size = fields.value? key ∧
      ∀ number, number ≠ s.dicts.size → s'.stamp key number = s.stamp key number := by
  have hentered : Owned entered := h.step henter
  have hcurrent : entered.current = s.dicts.size := by
    rw [(enterNew_of_step henter).2]
    rfl
  -- A new step has nothing but its level.
  have hmissing : (entered.entries s.dicts.size).value? key = none := by
    rw [(enterNew_of_step henter).2]
    show ((s.addAt (s.newEntries .step) (s.place .step)).entries s.dicts.size).value? key = none
    rw [(entries_addAt _ fun parent hparent => h.parent_lt hparent).1]
    exact value?_newEntries hkey
  constructor
  · rw [stamp_sets hentered hsets, hcurrent, if_pos rfl, hmissing, Option.none_or]
    cases fields.value? key <;> rfl
  · intro number hne
    rw [stamp_sets hentered hsets, hcurrent, if_neg hne, stamp_enter h henter hkey]

end Builder

end SolverLog
