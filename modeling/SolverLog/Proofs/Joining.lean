import SolverLog.Proofs.Path

/-!
# One document behind another

Two documents are joined by putting the globals and the steps of the second one behind those of the
first one. If no key of the globals is in both, the dictionaries of the second document stand in the
joined one at paths of their own (`Path.behind`), and changing one of them there is changing it in
the second document.

* `Document.at?_append`, `Document.modify_append` — looking up and changing a dictionary.
-/

namespace SolverLog

/-- Changing an item of the second part of a list. -/
theorem modify_append_right {α : Type} (first second : List α) (index : Nat) (change : α → α) :
    (first ++ second).modify (first.length + index) change =
      first ++ second.modify index change := by
  induction first with
  | nil => simp
  | cons item rest ih =>
      rw [List.cons_append, List.length_cons, Nat.add_right_comm, List.modify_succ_cons, ih,
        List.cons_append]

namespace Entries

variable {α : Type} {first : Entries α} {key : String}

theorem value?_append_of_not_mem (hkey : key ∉ first.keys) (second : Entries α) :
    value? (first ++ second) key = second.value? key := by
  have hnone : first.value? key = none := by
    rw [← Option.not_isSome_iff_eq_none, value?_isSome_iff]
    exact hkey
  rw [value?_append, hnone, Option.none_or]

theorem put_append_of_not_mem (hkey : key ∉ first.keys) (second : Entries α) (value : α) :
    put (first ++ second) key value = first ++ second.put key value := by
  induction first with
  | nil => rfl
  | cons entry rest ih =>
      obtain ⟨other, old⟩ := entry
      have hne : other ≠ key ∧ key ∉ keys rest := by
        simpa [keys, eq_comm] using hkey
      simp [put, hne.1, ih hne.2]

end Entries

theorem Dict.change_append_of_not_mem {first : Dict} {key : String} (hkey : key ∉ first.keys)
    (second : Dict) (change : Node → Node) :
    Dict.change (first ++ second) key change = first ++ Dict.change second key change := by
  have hfirst : Dict.change first key change = first.map id := by
    apply List.map_congr_left
    intro entry hentry
    have hne : entry.1 ≠ key := fun heq => hkey (heq ▸ Entries.mem_keys_of_mem hentry)
    rw [if_neg hne, id]
  rw [List.map_id] at hfirst
  rw [Dict.change, List.map_append, ← Dict.change, ← Dict.change, hfirst]

/-- The path behind a document with so many steps of a dictionary of another document. -/
def Path.behind (steps : Nat) : Path → Path
  | globals => globals
  | step index => step (steps + index)
  | member parent key => member (parent.behind steps) key
  | element parent key index => element (parent.behind steps) key index

namespace Document

/-- Two documents one behind the other. -/
def append (first second : Document) : Document where
  globals := first.globals ++ second.globals
  steps := first.steps ++ second.steps

/-- No key of the globals is in both documents. -/
def Apart (first second : Document) : Prop :=
  ∀ key ∈ first.globals.keys, key ∉ second.globals.keys

/-- What a dictionary of a document is behind another document: the globals come after those of the
other one. -/
def joined (first : Document) : Path → Dict → Dict
  | .globals, dict => first.globals ++ dict
  | _, dict => dict

variable {first second : Document} {path : Path} {dict : Dict} {key : String}

theorem joined_of_ne (hpath : path ≠ .globals) (dict : Dict) : first.joined path dict = dict := by
  cases path with
  | globals => exact absurd rfl hpath
  | step | member | element => rfl

/-- A key that a dictionary has is not one of the other document's globals. -/
theorem not_mem_of_apart (hapart : first.Apart second) (hat : second.at? path = some dict)
    (hkey : key ∈ dict.keys) : path = .globals → key ∉ first.globals.keys := by
  rintro rfl hfirst
  cases hat
  exact hapart key hfirst hkey

theorem value?_joined (hkey : path = .globals → key ∉ first.globals.keys) (dict : Dict) :
    Entries.value? (first.joined path dict) key = dict.value? key := by
  by_cases hpath : path = .globals
  · subst hpath
    exact Entries.value?_append_of_not_mem (hkey rfl) dict
  · rw [joined_of_ne hpath]

/-- What a dictionary has at a key, it has behind another document. -/
theorem value?_joined_of_some (hapart : first.Apart second) (hat : second.at? path = some dict)
    {node : Node} (hvalue : dict.value? key = some node) :
    Entries.value? (first.joined path dict) key = some node := by
  have hkey : key ∈ dict.keys := by
    rw [← Entries.value?_isSome_iff, hvalue]
    rfl
  rw [value?_joined (not_mem_of_apart hapart hat hkey), hvalue]

/-- The dictionaries of a document are found behind another one. -/
theorem at?_append (hapart : first.Apart second) (hat : second.at? path = some dict) :
    (first.append second).at? (path.behind first.steps.length) =
      some (first.joined path dict) := by
  induction path generalizing dict with
  | globals =>
      cases hat
      rfl
  | step index =>
      have hstep : second.steps[index]? = some dict := hat
      show (first.steps ++ second.steps)[first.steps.length + index]? = some dict
      rw [List.getElem?_append_right (Nat.le_add_right _ _), Nat.add_sub_cancel_left, hstep]
  | member parent key ih =>
      obtain ⟨holder, hparent, hbind⟩ := Option.bind_eq_some_iff.mp hat
      obtain ⟨node, hvalue, hdict⟩ := Option.bind_eq_some_iff.mp hbind
      rw [Path.behind, Document.at?, ih hparent, Option.bind_some,
        value?_joined_of_some hapart hparent hvalue]
      exact hdict
  | element parent key index ih =>
      obtain ⟨holder, hparent, hbind⟩ := Option.bind_eq_some_iff.mp hat
      obtain ⟨node, hvalue, hitem⟩ := Option.bind_eq_some_iff.mp hbind
      rw [Path.behind, Document.at?, ih hparent, Option.bind_some,
        value?_joined_of_some hapart hparent hvalue]
      exact hitem

/-- Changing the globals of a document behind another one. -/
theorem modify_append_globals {change : Dict → Dict}
    (hchange : change (first.globals ++ second.globals) = first.globals ++ change second.globals) :
    (first.append second).modify .globals change = first.append (second.modify .globals change) := by
  unfold Document.modify append
  rw [hchange]

/-- Changing what the holder of a dictionary has at a key: the holder may be the globals. -/
theorem modify_change_append (hapart : first.Apart second) (hat : second.at? path = some dict)
    {node : Node} (hvalue : dict.value? key = some node)
    (hother : path ≠ .globals → ∀ change : Dict → Dict,
      (first.append second).modify (path.behind first.steps.length) change =
        first.append (second.modify path change)) (change : Node → Node) :
    (first.append second).modify (path.behind first.steps.length)
        (fun dict => dict.change key change) =
      first.append (second.modify path fun dict => dict.change key change) := by
  by_cases hpath : path = .globals
  · subst hpath
    have hkey : key ∈ dict.keys := by
      rw [← Entries.value?_isSome_iff, hvalue]
      rfl
    apply modify_append_globals
    exact Dict.change_append_of_not_mem (not_mem_of_apart hapart hat hkey rfl) _ _
  · exact hother hpath _

/-- Changing a dictionary other than the globals, behind another document. -/
theorem modify_append_of_ne (hapart : first.Apart second) (hat : second.at? path = some dict)
    (hpath : path ≠ .globals) (change : Dict → Dict) :
    (first.append second).modify (path.behind first.steps.length) change =
      first.append (second.modify path change) := by
  -- The change goes up from holder to holder, and the last one may be the globals.
  induction path generalizing dict change with
  | globals => exact absurd rfl hpath
  | step index =>
      unfold Path.behind Document.modify append
      rw [modify_append_right]
  | member parent key ih =>
      obtain ⟨holder, hparent, hbind⟩ := Option.bind_eq_some_iff.mp hat
      obtain ⟨node, hvalue, -⟩ := Option.bind_eq_some_iff.mp hbind
      exact modify_change_append hapart hparent hvalue (fun hne => ih hparent hne) _
  | element parent key index ih =>
      obtain ⟨holder, hparent, hbind⟩ := Option.bind_eq_some_iff.mp hat
      obtain ⟨node, hvalue, -⟩ := Option.bind_eq_some_iff.mp hbind
      exact modify_change_append hapart hparent hvalue (fun hne => ih hparent hne) _

/-- Changing a dictionary behind another document, if a change of the globals leaves those of the other
document alone. -/
theorem modify_append (hapart : first.Apart second) (hat : second.at? path = some dict)
    {change : Dict → Dict}
    (hglobals : path = .globals →
      change (first.globals ++ second.globals) = first.globals ++ change second.globals) :
    (first.append second).modify (path.behind first.steps.length) change =
      first.append (second.modify path change) := by
  by_cases hpath : path = .globals
  · subst hpath
    exact modify_append_globals (hglobals rfl)
  · exact modify_append_of_ne hapart hat hpath change

end Document

end SolverLog
