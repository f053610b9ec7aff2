import Mathlib.Algebra.Order.Group.Nat
import QubitLock.Library.OrderedMap

set_option relaxedAutoImplicit false
set_option autoImplicit false

/-!
# The waiter registry

`WaiterRegistry` of `src/monitor/internal/waiter_registry.rs`: the waiters eligible for one
memoryless notification, indexed by strictly increasing 64-bit identifiers. Notification takes
the entry with the smallest identifier, so first-in first-out order is not stored but follows
from the identifiers.

A panicking method returns its message together with the registry it leaves behind.

## Main definitions

* `WaiterRegistry.register`, `takeOne`, `takeAll`, `unregister` — the methods of the source.
* `WaiterRegistry.entries` — the active registrations in registration order.
* `WaiterRegistry.WellFormed` — all identifiers in use lie below the next one.

## Main results

* `WaiterRegistry.register_of_lt`, `entries_takeOne`, `entries_takeAll`, `entries_unregister` —
  each method in terms of `entries`.
* `WaiterRegistry.WellFormed.register` and its companions — the methods keep well-formedness.
-/

namespace QubitLock

/-- `u64::checked_add`. -/
def checkedAddU64 (a b : ℕ) : Option ℕ :=
  if a + b < 2 ^ 64 then some (a + b) else none

/-- The registry of waiters eligible for a notification. -/
structure WaiterRegistry (W : Type) where
  /-- The next nonzero registration identifier, a 64-bit word. -/
  nextWaiterId : ℕ
  /-- The waiters indexed by registration identifier. -/
  waiters : Std.TreeMap ℕ W

namespace WaiterRegistry

variable {W : Type}

/-- The empty registry. -/
def new : WaiterRegistry W := ⟨1, ∅⟩

/-- Registers a waiter and returns its identifier, or the message of the panic. -/
def register (r : WaiterRegistry W) (waiter : W) : Except String ℕ × WaiterRegistry W :=
  let waiterId := r.nextWaiterId
  match checkedAddU64 waiterId 1 with
  | none => (.error "monitor waiter identifiers exhausted", r)
  | some next =>
    let previous := r.waiters[waiterId]?
    let r' : WaiterRegistry W := ⟨next, r.waiters.insert waiterId waiter⟩
    if previous.isNone then (.ok waiterId, r')
    else (.error "monitor waiter identifier must be unique", r')

/-- Removes and returns the longest-registered waiter. -/
def takeOne (r : WaiterRegistry W) : Option W × WaiterRegistry W :=
  let (first, waiters) := r.waiters.popFirst
  (first.map Prod.snd, { r with waiters })

/-- Removes and returns every waiter in registration order. -/
def takeAll (r : WaiterRegistry W) : List W × WaiterRegistry W :=
  (r.waiters.toList.map Prod.snd, { r with waiters := ∅ })

/-- Removes the waiter registered under an identifier. -/
def unregister (r : WaiterRegistry W) (waiterId : ℕ) : Option W × WaiterRegistry W :=
  (r.waiters[waiterId]?, { r with waiters := r.waiters.erase waiterId })

/-- The active registrations in registration order. -/
def entries (r : WaiterRegistry W) : List (ℕ × W) := r.waiters.toList

/-- All identifiers in use are nonzero and below the next identifier, which is a 64-bit word. -/
structure WellFormed (r : WaiterRegistry W) : Prop where
  pos : 0 < r.nextWaiterId
  word : r.nextWaiterId < 2 ^ 64
  key_pos : ∀ e ∈ r.entries, 0 < e.1
  key_lt : ∀ e ∈ r.entries, e.1 < r.nextWaiterId

/-! ## The methods in terms of the entries -/

/-- The entries are sorted by identifier. -/
lemma entries_sorted (r : WaiterRegistry W) : r.entries.Pairwise fun a b => a.1 < b.1 := by
  refine (Std.TreeMap.ordered_keys_toList (t := r.waiters)).imp ?_
  intro a b hab
  exact Nat.compare_eq_lt.mp hab

/-- A lookup succeeds exactly on the entries. -/
lemma getElem?_waiters_eq_some {r : WaiterRegistry W} {k : ℕ} {w : W} :
    r.waiters[k]? = some w ↔ (k, w) ∈ r.entries :=
  Std.TreeMap.mem_toList_iff_getElem?_eq_some.symm

@[simp] lemma entries_new : (new : WaiterRegistry W).entries = [] := rfl

@[simp] lemma nextWaiterId_new : (new : WaiterRegistry W).nextWaiterId = 1 := rfl

/-- With the identifier space exhausted, `register` panics and changes nothing. -/
lemma register_of_not_lt {r : WaiterRegistry W} (w : W) (h : ¬ r.nextWaiterId + 1 < 2 ^ 64) :
    r.register w = (.error "monitor waiter identifiers exhausted", r) := by
  simp only [register, checkedAddU64, if_neg h]

/-- Below the limit, `register` on a well-formed registry returns the next identifier: the
uniqueness assertion holds because every key in use is smaller. -/
lemma register_of_lt {r : WaiterRegistry W} (hr : r.WellFormed) (w : W)
    (h : r.nextWaiterId + 1 < 2 ^ 64) :
    r.register w = (.ok r.nextWaiterId,
      ⟨r.nextWaiterId + 1, r.waiters.insert r.nextWaiterId w⟩) := by
  have hnone : r.waiters[r.nextWaiterId]? = none := by
    rw [Option.eq_none_iff_forall_ne_some]
    intro v hv
    exact absurd (hr.key_lt _ (getElem?_waiters_eq_some.mp hv)) (lt_irrefl _)
  simp only [register, checkedAddU64, if_pos h, hnone, Option.isNone_none, if_true]

/-- A fresh registration is appended to the entries. -/
lemma entries_register {r : WaiterRegistry W} (hr : r.WellFormed) (w : W)
    (h : r.nextWaiterId + 1 < 2 ^ 64) :
    (r.register w).2.entries = r.entries ++ [(r.nextWaiterId, w)] := by
  rw [register_of_lt hr w h]
  refine Std.TreeMap.toList_insert_of_lt w ?_
  intro e he
  exact Nat.compare_eq_lt.mpr (hr.key_lt e he)

/-- `takeOne` returns the head of the entries. -/
lemma takeOne_fst (r : WaiterRegistry W) : r.takeOne.1 = r.entries.head?.map Prod.snd := by
  show (r.waiters.popFirst).1.map Prod.snd = _
  rw [(Std.TreeMap.popFirst_toList r.waiters).1, entries]

/-- `takeOne` leaves the tail of the entries. -/
@[simp] lemma entries_takeOne (r : WaiterRegistry W) : r.takeOne.2.entries = r.entries.tail :=
  (Std.TreeMap.popFirst_toList r.waiters).2

/-- `takeAll` returns all waiters. -/
lemma takeAll_fst (r : WaiterRegistry W) : r.takeAll.1 = r.entries.map Prod.snd := rfl

/-- `takeAll` leaves no entry. -/
@[simp] lemma entries_takeAll (r : WaiterRegistry W) : r.takeAll.2.entries = [] := rfl

/-- `unregister` returns a waiter exactly if the identifier is active. -/
lemma unregister_fst (r : WaiterRegistry W) (k : ℕ) (w : W) :
    (r.unregister k).1 = some w ↔ (k, w) ∈ r.entries :=
  getElem?_waiters_eq_some

/-- `unregister` reports whether the identifier was active. -/
lemma unregister_isSome (r : WaiterRegistry W) (k : ℕ) :
    (r.unregister k).1.isSome = true ↔ ∃ w, (k, w) ∈ r.entries := by
  rw [Option.isSome_iff_exists]
  exact exists_congr fun w => r.unregister_fst k w

/-- `unregister` removes the entry of its identifier. -/
@[simp] lemma entries_unregister (r : WaiterRegistry W) (k : ℕ) :
    (r.unregister k).2.entries = r.entries.filter fun e => e.1 ≠ k :=
  Std.TreeMap.toList_erase r.waiters k

/-! ## Well-formedness -/

/-- The empty registry is well formed. -/
lemma WellFormed.new : (new : WaiterRegistry W).WellFormed :=
  ⟨by simp, by simp, by simp, by simp⟩

/-- A registry with the same counter and fewer entries stays well formed. -/
lemma WellFormed.of_subset {r r' : WaiterRegistry W} (h : r.WellFormed)
    (hn : r'.nextWaiterId = r.nextWaiterId) (hs : r'.entries ⊆ r.entries) : r'.WellFormed :=
  ⟨hn ▸ h.pos, hn ▸ h.word, fun e he => h.key_pos e (hs he), fun e he => hn ▸ h.key_lt e (hs he)⟩

/-- `register` keeps a registry well formed, also when it panics. -/
lemma WellFormed.register {r : WaiterRegistry W} (h : r.WellFormed) (w : W) :
    (r.register w).2.WellFormed := by
  by_cases hlt : r.nextWaiterId + 1 < 2 ^ 64
  · have hn : (r.register w).2.nextWaiterId = r.nextWaiterId + 1 := by
      rw [register_of_lt h w hlt]
    refine ⟨by omega, by omega, ?_, ?_⟩
    · intro e he
      rw [entries_register h w hlt, List.mem_append, List.mem_singleton] at he
      rcases he with he | rfl
      · exact h.key_pos e he
      · exact h.pos
    · intro e he
      rw [entries_register h w hlt, List.mem_append, List.mem_singleton] at he
      rw [hn]
      rcases he with he | rfl
      · exact (h.key_lt e he).trans (Nat.lt_succ_self _)
      · exact Nat.lt_succ_self _
  · rw [register_of_not_lt w hlt]
    exact h

/-- `takeOne` keeps a registry well formed. -/
lemma WellFormed.takeOne {r : WaiterRegistry W} (h : r.WellFormed) : r.takeOne.2.WellFormed :=
  h.of_subset rfl (by rw [entries_takeOne]; exact (List.tail_sublist _).subset)

/-- `takeAll` keeps a registry well formed. -/
lemma WellFormed.takeAll {r : WaiterRegistry W} (h : r.WellFormed) : r.takeAll.2.WellFormed :=
  h.of_subset rfl (by simp)

/-- `unregister` keeps a registry well formed. -/
lemma WellFormed.unregister {r : WaiterRegistry W} (h : r.WellFormed) (k : ℕ) :
    (r.unregister k).2.WellFormed :=
  h.of_subset rfl (by rw [entries_unregister]; exact List.filter_subset_self _)

end WaiterRegistry

end QubitLock
