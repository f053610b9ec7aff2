import QubitLock.Lock.Isolation

set_option relaxedAutoImplicit false
set_option autoImplicit false

/-!
# Progress

Only a blocking acquisition ever waits, and it waits for a guard. The owner of a guard never waits: it
is in the code of an operation, which goes on, or it is user code. So the operations of a lock cannot
block each other for good; if nobody can go on, user code keeps a guard.

## Main results

* `waits_for_a_guard` — whom an activity that cannot go on waits for.
-/

namespace QubitLock.Lock

variable {σ ρ Tid : Type} {b : Backend}

/-- User code: the activity waits for a choice. -/
def Pc.isUser : Pc σ ρ → Bool
  | .idle | .future _ | .pending _ | .held _ => true
  | _ => false

variable [DecidableEq Tid]

/-- The owner of a guard is user code, or it can go on. -/
lemma isSome_fire_of_mode {p : Pc σ ρ} {md : LockMode} (hp : p.mode = some md) (m : Mem σ Tid)
    (t : Tid) (o : World) : p.isUser = true ∨ (fire b m t o p).isSome = true := by
  cases p with
  | idle | future | pending | poll | leave | acquire | parked | tryAcquire | done | panicked => cases hp
  | held => exact .inl rfl
  | _ => exact .inr rfl

/-- An operation that cannot go on is a blocking acquisition in the queue of the lock. -/
lemma eq_parked_of_fire_eq_none {p : Pc σ ρ} {m : Mem σ Tid} {t : Tid} {o : World}
    (hp : p.isUser = false) (hf : fire b m t o p = none) :
    ∃ op, p = .parked op ∧ m.tryAcquire t (b.mode op.access) o.admits = false := by
  cases p with
  | parked op =>
    refine ⟨op, rfl, ?_⟩
    simp only [fire] at hf
    split at hf
    · cases hf
    · rename_i hno
      exact Bool.not_eq_true _ ▸ hno
  | acquire op | tryAcquire op =>
    simp only [fire] at hf
    split at hf <;> cases hf
  | poll op queued =>
    simp only [fire] at hf
    split at hf
    · cases hf
    · split at hf <;> cases hf
  | idle | future | pending | held => cases hp
  | _ => cases hf

variable {v₀ : σ} {tr : List (Label σ ρ Tid)} {c : Threads.Conf (Mem σ Tid) Tid (Pc σ ρ)}

/-- **An activity waits only for a guard whose owner does not wait.** In every state of every run, an
operation that cannot go on although its queue admits it is a blocking acquisition; another activity
owns a guard that does not go with it, and that one is user code or can go on itself.

**Proof sketch.** Only a parked acquisition can not fire. Its queue admits it, so the lock itself
refuses: some holder is not compatible. The holders are the activities with a guard (`mem_holders_iff`),
and at a place with a guard every primitive fires. -/
theorem waits_for_a_guard (h : Run b v₀ tr c) {t : Tid} {o : World} (ho : o.admits = true)
    (ht : (c.pc t).isUser = false) (hf : fire b c.mem t o (c.pc t) = none) :
    ∃ op u md, c.pc t = .parked op ∧ u ≠ t ∧ (c.pc u).mode = some md ∧
      ¬ (b.mode op.access).Compatible md ∧
      ((c.pc u).isUser = true ∨ ∀ o, (fire b c.mem u o (c.pc u)).isSome = true) := by
  obtain ⟨op, hop, hno⟩ := eq_parked_of_fire_eq_none ht hf
  have hnone := acquire_eq_none_of_tryAcquire (.inl ho) hno
  obtain ⟨u, md, hu, hnot⟩ := Holders.acquire_eq_none.mp hnone
  have hmode : (c.pc u).mode = some md := (mem_holders_iff h u md).mp hu
  refine ⟨op, u, md, hop, ?_, hmode, hnot, ?_⟩
  · rintro rfl
    rw [hop] at hmode
    cases hmode
  · by_cases huser : (c.pc u).isUser = true
    · exact .inl huser
    · exact .inr fun o => (isSome_fire_of_mode hmode c.mem u o).resolve_left huser

/-- A writer waits for a reader in user code. -/
theorem waits_for_a_guard_reader :
    ∃ (tr : List (Label ℕ ℕ Bool)) (c : Threads.Conf (Mem ℕ Bool) Bool (Pc ℕ ℕ)),
      Run .parkingLotRwLock 0 tr c ∧
      ∃ op u md, c.pc true = .parked op ∧ u ≠ true ∧ (c.pc u).mode = some md ∧
        ¬ (Backend.parkingLotRwLock.mode op.access).Compatible md := by
  have hr : ∃ (tr : List (Label ℕ ℕ Bool)) (c : Threads.Conf (Mem ℕ Bool) Bool (Pc ℕ ℕ)),
      Run .parkingLotRwLock 0 tr c ∧ (c.pc true).isUser = false ∧
      fire .parkingLotRwLock c.mem true .quiet (c.pc true) = none :=
    ⟨_, _, Lts.Run.nil.cons (.choose false (.call .read)) rfl |>.cons (.run false .quiet) rfl
      |>.cons (.run false .quiet) rfl |>.cons (.choose true (.call .write)) rfl
      |>.cons (.run true .quiet) rfl, rfl, rfl⟩
  obtain ⟨tr, c, hr, huser, hnone⟩ := hr
  obtain ⟨op, u, md, hop, hut, hmode, hnot, -⟩ := waits_for_a_guard hr rfl huser hnone
  exact ⟨tr, c, hr, op, u, md, hop, hut, hmode, hnot⟩

end QubitLock.Lock
