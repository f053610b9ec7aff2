import Mathlib.Data.List.Nodup
import Std.Data.TreeMap.Lemmas

set_option relaxedAutoImplicit false
set_option autoImplicit false

/-!
# Ordered maps seen as sorted lists

The entries of a `Std.TreeMap` in key order determine every operation on it. This file gives the
operations that a queue needs in that form: appending a key above all others, removing the first
entry, removing a key.

## Main definitions

* `Std.TreeMap.popFirst` — removes and returns the entry with the smallest key.

## Main results

* `Std.TreeMap.toList_eq_of_mem_iff` — a sorted list with the entries of a map is its list.
* `Std.TreeMap.toList_insert_of_lt` — inserting above all keys appends.
* `Std.TreeMap.toList_erase` — erasing filters.
* `Std.TreeMap.popFirst_toList` — `popFirst` takes the head of the list.
-/

namespace Std.TreeMap

variable {κ ν : Type} [Ord κ] [TransOrd κ] [LawfulEqOrd κ]

/-- Removes and returns the entry with the smallest key. -/
def popFirst (m : TreeMap κ ν) : Option (κ × ν) × TreeMap κ ν :=
  match m.toList.head? with
  | none => (none, m)
  | some e => (some e, m.erase e.1)

/-- Lists sorted strictly by key that have the same members are equal. -/
lemma eq_of_sorted_of_mem_iff {l l' : List (κ × ν)}
    (hl : l.Pairwise fun a b => compare a.1 b.1 = .lt)
    (hl' : l'.Pairwise fun a b => compare a.1 b.1 = .lt) (h : ∀ e, e ∈ l ↔ e ∈ l') : l = l' := by
  have hne : ∀ {l : List (κ × ν)}, l.Pairwise (fun a b => compare a.1 b.1 = .lt) → l.Nodup := by
    intro l hp
    refine hp.imp ?_
    rintro a b hab rfl
    simp at hab
  have hperm := (List.perm_ext_iff_of_nodup (hne hl) (hne hl')).mpr h
  have hanti : ∀ a b, a ∈ l → b ∈ l' → compare a.1 b.1 = .lt → compare b.1 a.1 = .lt → a = b := by
    intro a b _ _ hab hba
    exact absurd (OrientedCmp.gt_of_lt hab) (by rw [hba]; decide)
  exact hperm.eq_of_pairwise hanti hl hl'

/-- A sorted list whose members are the entries of a map is the list of the map. -/
lemma toList_eq_of_mem_iff {m : TreeMap κ ν} {l : List (κ × ν)}
    (hl : l.Pairwise fun a b => compare a.1 b.1 = .lt)
    (h : ∀ k v, (k, v) ∈ l ↔ m[k]? = some v) : m.toList = l := by
  refine eq_of_sorted_of_mem_iff ordered_keys_toList hl ?_
  rintro ⟨k, v⟩
  rw [h, mem_toList_iff_getElem?_eq_some]

/-- Inserting a key above all keys of the map appends an entry. -/
lemma toList_insert_of_lt {m : TreeMap κ ν} {k : κ} (v : ν)
    (hk : ∀ e ∈ m.toList, compare e.1 k = .lt) :
    (m.insert k v).toList = m.toList ++ [(k, v)] := by
  refine toList_eq_of_mem_iff ?_ ?_
  · rw [List.pairwise_append]
    refine ⟨ordered_keys_toList, List.pairwise_singleton _ _, ?_⟩
    intro e he e' he'
    rw [List.mem_singleton] at he'
    subst he'
    exact hk e he
  · intro k' v'
    rw [List.mem_append, List.mem_singleton, mem_toList_iff_getElem?_eq_some, getElem?_insert]
    by_cases hkk : k = k'
    · subst hkk
      have hnone : m[k]? ≠ some v' := by
        intro hs
        have := hk (k, v') (mem_toList_iff_getElem?_eq_some.mpr hs)
        simp at this
      simp [hnone, eq_comm]
    · have hc : ¬ compare k k' = .eq := fun hc => hkk (LawfulEqCmp.eq_of_compare hc)
      have hp : (k', v') ≠ (k, v) := fun he => hkk (congrArg Prod.fst he).symm
      simp [hc, hp]

/-- Erasing a key removes its entry and keeps the others in order. -/
lemma toList_erase [DecidableEq κ] (m : TreeMap κ ν) (k : κ) :
    (m.erase k).toList = m.toList.filter fun e => e.1 ≠ k := by
  refine toList_eq_of_mem_iff (ordered_keys_toList.filter _) ?_
  intro k' v'
  rw [List.mem_filter, mem_toList_iff_getElem?_eq_some, getElem?_erase]
  by_cases hkk : k = k'
  · subst hkk
    simp
  · have hc : ¬ compare k k' = .eq := fun hc => hkk (LawfulEqCmp.eq_of_compare hc)
    simp [hc, Ne.symm hkk]

/-- `popFirst` returns the head of the list and leaves its tail. -/
lemma popFirst_toList [DecidableEq κ] (m : TreeMap κ ν) :
    (popFirst m).1 = m.toList.head? ∧ (popFirst m).2.toList = m.toList.tail := by
  unfold popFirst
  cases hl : m.toList with
  | nil => simp [hl]
  | cons e l =>
    refine ⟨rfl, ?_⟩
    have hs := ordered_keys_toList (t := m)
    rw [hl, List.pairwise_cons] at hs
    simp only [List.head?_cons, toList_erase, hl, List.tail_cons]
    rw [List.filter_cons_of_neg (by simp), List.filter_eq_self]
    intro e' he'
    have hlt := hs.1 e' he'
    simp only [ne_eq, decide_eq_true_eq]
    intro heq
    rw [heq] at hlt
    simp at hlt

end Std.TreeMap
