import QubitLock.Monitor.Ownership

set_option relaxedAutoImplicit false
set_option autoImplicit false

/-!
# What a thread of a monitor waits for

Two primitives wait: taking the state lock waits for its owner, and parking waits for the latch of the
waiter. This file shows for any typed program that nothing else does, that the owner of the state lock
never waits, and that a parked thread is in the registry or about to be signalled.

## Main definitions

* `Cmd.Ready` — a primitive can be executed.

## Main results

* `Program.Typed.waits_for` — what a thread waits for that can not execute its primitive.
* `Program.Typed.owner_ready` — the owner of the state lock waits for user code alone.
-/

namespace QubitLock

variable {σ ρ K Pc Choice Tid : Type}

/-- The primitive can be executed. -/
def Cmd.Ready (m : Mem σ Tid) (t : Tid) : Cmd σ ρ K → Prop
  | .lock _ => m.owner = none
  | .park a _ => m.signalled a = true
  | .pollTimer _ _ => (m.future t).isSome = true
  | .suspend => False
  | _ => True

/-- Whether a primitive can be executed does not depend on the outside world. -/
lemma Cmd.isSome_fire_iff {m : Mem σ Tid} {t : Tid} {fault : Option TimeError} {c : Cmd σ ρ K} :
    (c.fire m t fault).isSome = true ↔ c.Ready m t := by
  cases c with
  | lock | park =>
    simp only [fire, Mem.recover_lockState, Ready]
    split <;> simp_all
  | tryLock | releaseGuard | check | read | write | timerAt | register =>
    simp only [fire, Ready, iff_true]
    split <;> rfl
  | pollTimer => simp [fire, Ready]
  | suspend => simp [fire, Ready]
  | _ => simp [fire, Ready]

variable [DecidableEq Tid] {P : Program σ ρ Pc Choice} (T : P.Typed Tid)

section Needs

variable {m : Mem σ Tid} {pc : Tid → Pc} {t : Tid} (h : Owned m fun u => T.typ (pc u))

include h

/-- A thread that polls its Timer future has one. -/
lemma Program.Typed.future_of_pollTimer {w : Waker} {k : Poll → Pc}
    (hp : P.code (pc t) = .pollTimer w k) : (m.future t).isSome = true := by
  -- the typing does not depend on the future
  have hneeds := (T.fire_next (m := { m with future := fun _ => some (.at_ 0) }) (o := none)
    (h.lock.slot t) (show (P.code (pc t)).fire _ t none = some (.polled w _, k _) by
      rw [hp]
      rfl)).1
  exact h.future t hneeds.1

/-- A thread that takes the state lock does not hold it. -/
lemma Program.Typed.not_holds_of_lock {k : Pc} (hp : P.code (pc t) = .lock k) :
    (T.typ (pc t)).holds = false := by
  have hneeds := (T.fire_next (m := { m with owner := none }) (o := none) (h.lock.slot t)
    (show (P.code (pc t)).fire _ t none = some (.locked, k) by
      simp [hp, Cmd.fire])).1
  exact hneeds.1

/-- A thread that parks has given up the state lock and has registered the waiter. -/
lemma Program.Typed.registered_of_park {a : ℕ} {k : Pc} (hp : P.code (pc t) = .park a k) :
    (T.typ (pc t)).holds = false ∧ ∃ g, (T.typ (pc t)).reg = some g ∧ g.waiter = a :=
  (T.fire_next (m := { m with signalled := fun _ => true }) (o := none) (h.lock.slot t)
    (show (P.code (pc t)).fire _ t none = some (.woke a, k) by
      rw [hp]
      rfl)).1

/-- **The owner of the state lock waits for user code alone.** -/
lemma Program.Typed.owner_ready (ho : m.owner = some t) :
    P.code (pc t) = .suspend ∨ (P.code (pc t)).Ready m t := by
  have hholds : (T.typ (pc t)).holds = true := (h.lock.owner t).mp ho
  cases hc : P.code (pc t) with
  | suspend => exact .inl rfl
  | lock k =>
    rw [T.not_holds_of_lock h hc] at hholds
    cases hholds
  | park a k =>
    rw [(T.registered_of_park h hc).1] at hholds
    cases hholds
  | pollTimer w k => exact .inr (T.future_of_pollTimer h hc)
  | _ => exact .inr trivial

/-- **What a thread waits for** that can not execute its primitive: user code or its executor, the owner
of the state lock, or a signal to its waiter, which is in the registry or about to be signalled.

**Proof sketch.** By cases on the primitive: only a lock, a sleep and a suspension can be impossible.
The registration of a sleeper is in the registry, is about to be signalled, or its latch is set
(`source`), and the last is excluded. -/
lemma Program.Typed.waits_for (hnot : ¬ (P.code (pc t)).Ready m t) :
    P.code (pc t) = .suspend ∨
    (∃ k u, P.code (pc t) = .lock k ∧ m.owner = some u ∧ u ≠ t) ∨
    ∃ k g, P.code (pc t) = .park g.waiter k ∧ m.signalled g.waiter = false ∧
      (T.typ (pc t)).reg = some g ∧
        (g ∈ m.registrations ∨ ∃ u, g.waiter ∈ (T.typ (pc u)).sig) := by
  cases hc : P.code (pc t) with
  | suspend => exact .inl rfl
  | lock k =>
    rw [hc] at hnot
    obtain ⟨u, hu⟩ := Option.ne_none_iff_exists'.mp hnot
    refine .inr (.inl ⟨k, u, rfl, hu, ?_⟩)
    rintro rfl
    have hholds := (h.lock.owner u).mp hu
    rw [T.not_holds_of_lock h hc] at hholds
    cases hholds
  | park a k =>
    rw [hc] at hnot
    obtain ⟨-, g, hg, rfl⟩ := T.registered_of_park h hc
    have hunset : m.signalled g.waiter = false := by simpa [Cmd.Ready] using hnot
    refine .inr (.inr ⟨k, g, rfl, hunset, hg, ?_⟩)
    rcases h.source t g hg with hin | hu | hset
    · exact .inl hin
    · exact .inr hu
    · rw [hunset] at hset
      cases hset
  | pollTimer w k =>
    rw [hc] at hnot
    exact absurd (T.future_of_pollTimer h hc) hnot
  | _ =>
    rw [hc] at hnot
    exact absurd trivial hnot

end Needs

end QubitLock
