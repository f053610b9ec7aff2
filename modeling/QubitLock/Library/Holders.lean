import Mathlib.Data.List.Pairwise

set_option relaxedAutoImplicit false
set_option autoImplicit false

/-!
# The holders of a shared lock

A lock may be held in one of two modes: any number of activities may hold it together in the shared
mode, and one that holds it in the exclusive mode holds it alone. The holders carry this exclusion
with them, so that no sequence of acquisitions and releases can break it.

## Main definitions

* `LockMode`, `LockMode.Compatible` — the modes and which of them go together.
* `Holders` — who holds a lock, in which mode.
* `Holders.acquire`, `Holders.release` — taking and leaving the lock.

## Main results

* `Holders.acquire_eq_none` — an acquisition fails exactly if somebody is in the way.
* `Holders.exclusive_alone` — a holder in the exclusive mode is the only one.
-/

/-- The modes in which a lock is held. -/
inductive LockMode where
  | shared
  | exclusive
  deriving DecidableEq

/-- Two modes in which a lock may be held at the same time. -/
def LockMode.Compatible (x y : LockMode) : Prop := x = .shared ∧ y = .shared

instance (x y : LockMode) : Decidable (x.Compatible y) := inferInstanceAs (Decidable (_ ∧ _))

lemma LockMode.Compatible.symm {x y : LockMode} (h : x.Compatible y) : y.Compatible x := ⟨h.2, h.1⟩

/-- The exclusive mode goes with no other. -/
@[simp] lemma LockMode.not_compatible_exclusive (x : LockMode) : ¬ x.Compatible .exclusive := by
  simp [Compatible]

/-- The holders of a lock, each with its mode; any two of them are compatible. -/
structure Holders (Tid : Type) where
  /-- The holders, newest first. -/
  list : List (Tid × LockMode)
  /-- Nobody holds the lock beside an exclusive holder. -/
  compatible : list.Pairwise fun a b => a.2.Compatible b.2

namespace Holders

variable {Tid : Type}

/-- A free lock. -/
def free : Holders Tid := ⟨[], .nil⟩

/-- Adds a holder, unless somebody holds the lock in a mode that does not go with the new one. -/
def acquire (h : Holders Tid) (t : Tid) (md : LockMode) : Option (Holders Tid) :=
  if hc : ∀ a ∈ h.list, md.Compatible a.2 then some ⟨(t, md) :: h.list, h.compatible.cons hc⟩ else none

/-- Removes a holder. -/
def release [DecidableEq Tid] (h : Holders Tid) (t : Tid) : Holders Tid :=
  ⟨h.list.filter fun a => a.1 ≠ t, h.compatible.filter _⟩

@[simp] lemma list_free : (free : Holders Tid).list = [] := rfl

/-- **An acquisition fails exactly if somebody is in the way.** -/
lemma acquire_eq_none {h : Holders Tid} {t : Tid} {md : LockMode} :
    h.acquire t md = none ↔ ∃ u md', (u, md') ∈ h.list ∧ ¬ md.Compatible md' := by
  simp only [acquire, dite_eq_right_iff, reduceCtorEq, imp_false, not_forall, Prod.exists, exists_prop]

/-- What an acquisition leads to. -/
lemma list_acquire {h h' : Holders Tid} {t : Tid} {md : LockMode} (ha : h.acquire t md = some h') :
    h'.list = (t, md) :: h.list ∧ ∀ a ∈ h.list, md.Compatible a.2 := by
  simp only [acquire] at ha
  split at ha
  · rename_i hc
    cases ha
    exact ⟨rfl, hc⟩
  · cases ha

/-- Who holds the lock after a release. -/
lemma mem_release [DecidableEq Tid] {h : Holders Tid} {t u : Tid} {md : LockMode} :
    (u, md) ∈ (h.release t).list ↔ (u, md) ∈ h.list ∧ u ≠ t := by
  simp [release, List.mem_filter]

/-- **Nobody else holds the lock beside an exclusive holder.** -/
lemma exclusive_alone {h : Holders Tid} {t u : Tid} {md : LockMode}
    (ht : (t, .exclusive) ∈ h.list) (hu : (u, md) ∈ h.list) : u = t := by
  by_contra hut
  have hne : ((u, md) : Tid × LockMode) ≠ (t, .exclusive) := fun he => hut (congrArg Prod.fst he)
  have hsymm : Std.Symm fun a b : Tid × LockMode => a.2.Compatible b.2 := ⟨fun _ _ hc => hc.symm⟩
  exact LockMode.not_compatible_exclusive md (h.compatible.forall hu ht hne)

end Holders
