import QubitLock.Blocking.Program
import QubitLock.Monitor.Handshake
import QubitLock.Tokio.Program

set_option relaxedAutoImplicit false
set_option autoImplicit false

/-!
# The monitors with their private locks

The programs of the two kinds of monitors use primitives that are atomic. In the source they are
executed under private locks: an operation on the registry reads it and writes it in different steps
under its mutex, and a blocking waiter is a flag with a condition variable. This file justifies the
atomic primitives: with private locks the monitors have the same runs, the condition variables lose no
wakeup, and the private locks cause no deadlock.

## Main definitions

* `LeafLocks` — who holds a private lock waits for nobody.

## Main results

* `private_locks_exact` — the runs with private locks, where an operation on the registry is a read and
  a later write, are the runs with atomic primitives.
* `wakeups_not_lost` — a sleeping thread whose flag is set is about to be woken.
* `private_locks_are_leaves` — the private locks cause no deadlock.
-/

namespace QubitLock

variable {σ ρ Tid : Type} [DecidableEq Tid]

/-- **The atomic primitives are justified.** A blocking monitor whose registry and waiters are behind
mutexes and condition variables of their own does, read without the steps on these, exactly what it
does with atomic primitives, and so does a Tokio monitor whose registry is behind a mutex. Under its
mutex an operation on the registry reads it in one step and writes it in a later one.

**Proof sketch.** A run with private locks is read without them by `Program.inner_refines`: mutual
exclusion keeps the registry as it was read until it is written. In the other direction a run of the
program is executed primitive by primitive, with all private locks free in between. -/
theorem private_locks_exact (maxInstant : ℕ) (s₀ : Setup σ) :
    (∀ (tr : List (Program.Label σ ρ (Blocking.Choice σ ρ) Tid))
        (c : Threads.Conf (Mem σ Tid) Tid (Blocking.Pc σ ρ)),
      (Blocking.program maxInstant).Run s₀ tr c ↔
        ∃ tr' c', (Blocking.program maxInstant).InnerRun true s₀ tr' c' ∧ outerTrace tr' = tr ∧
          outerConf c' = c) ∧
    ∀ (tr : List (Program.Label σ ρ (Tokio.Choice σ ρ) Tid))
        (c : Threads.Conf (Mem σ Tid) Tid (Tokio.Pc σ ρ)),
      (Tokio.program maxInstant).Run s₀ tr c ↔
        ∃ tr' c', (Tokio.program maxInstant).InnerRun false s₀ tr' c' ∧ outerTrace tr' = tr ∧
          outerConf c' = c :=
  ⟨fun _ _ => Program.run_iff_innerRun, fun _ _ => Program.run_iff_innerRun⟩

/-! ## No wakeup is lost -/

namespace Blocking

omit [DecidableEq Tid] in
/-- Waking the only sleeper of a waiter. -/
lemma asleep_of_wakeOne {m : InnerMem σ Tid} {t : Tid} {a pick : ℕ} (h : m.asleep a = [t]) :
    t ∉ Function.update m.asleep a (wakeOne (m.asleep a) pick) a := by
  rw [Function.update_self, wakeOne_eq_nil (by rw [h]; rfl)]
  exact List.not_mem_nil

/-- **No wakeup is lost.** In every run of a blocking monitor a thread that goes to sleep in
`Condvar::wait` has not missed the flag of its waiter; and a thread that sleeps while the flag is set
is the only sleeper of its waiter, and somebody who is between setting the flag and `notify_one`, a
notification or the Timer, wakes it by its next step, whichever thread `notify_one` picks.

**Proof sketch.** The agreement on the sleeping threads holds in every run (`Program.Typed.sleepers`):
it names a notifier for a sleeper whose flag is set. The sleeper is the only one, so `notify_one` has no
other thread to pick. -/
theorem wakeups_not_lost (maxInstant : ℕ) (s₀ : Setup σ)
    {tr : List (Program.InnerLabel σ ρ (Choice σ ρ) Tid)}
    {c : Threads.Conf (InnerMem σ Tid) Tid (InnerPc (Pc σ ρ))}
    (h : (program maxInstant).InnerRun true s₀ tr c) (t : Tid) (a : ℕ) :
    (∀ p, c.pc t = .sleep p a → c.mem.mem.signalled a = false) ∧
    (t ∈ c.mem.asleep a → c.mem.mem.signalled a = true →
      c.mem.asleep a = [t] ∧
        ((∃ u k, c.pc u = .notify a k ∧ ∀ o, ∃ c' l,
            ((program maxInstant).innerThreads true).step c (.run u o) = some (c', l) ∧
              t ∉ c'.mem.asleep a) ∨
          c.mem.waking a = some .flagged ∧ ∀ pick, ∃ c' l,
            ((program maxInstant).innerThreads true).step c (.ambient (.signal a pick)) = some (c', l) ∧
              t ∉ c'.mem.asleep a)) := by
  have hs := (typed maxInstant Tid).sleepers h
  refine ⟨fun p hp => hs.unset hp, fun hmem hset => ?_⟩
  have hone : c.mem.asleep a = [t] := by
    have hlength := (typed maxInstant Tid).asleep_length h hs a
    match hl : c.mem.asleep a with
    | [] => simp [hl] at hmem
    | [u] =>
      rw [hl, List.mem_singleton] at hmem
      rw [hmem]
    | _ :: _ :: _ => simp [hl] at hlength
  refine ⟨hone, ?_⟩
  rcases hs.notifier (List.ne_nil_of_mem hmem) hset with ⟨u, k, hu⟩ | hw
  · refine .inl ⟨u, k, hu, fun o => ⟨_, _, ((program maxInstant).innerThreads true).step_run
      (d := .notified a o.pick) (p := .unlock (.latch a) k) ?_, asleep_of_wakeOne hone⟩⟩
    show c.mem.fire (program maxInstant) true u o (c.pc u) = _
    rw [hu]
    rfl
  · refine .inr ⟨hw, fun pick => ?_⟩
    have he : c.mem.ambient (.signal a pick) = some ({ c.mem with
        asleep := Function.update c.mem.asleep a (wakeOne (c.mem.asleep a) pick)
        waking := Function.update c.mem.waking a (some .notified) }, none) := by
      simp only [InnerMem.ambient, hw]
    exact ⟨_, _, ((program maxInstant).innerThreads true).step_ambient he, asleep_of_wakeOne hone⟩

/-- Thread `0` waits forever and falls asleep on its waiter, then thread `1` notifies and has set the
flag. -/
def nappingWaiter : List (Threads.Event ℕ Outside (Choice ℕ ℕ) (InnerEvent ℕ)) :=
  let wait : Choice ℕ ℕ := .call (.waitWhile ⟨fun _ _ => some true, fun v => (v, some v)⟩)
  .choose 0 wait :: List.replicate 10 (.run 0 ⟨none, false, 0⟩) ++
    .choose 1 (.call .notifyAll) :: List.replicate 6 (.run 1 ⟨none, false, 0⟩)

theorem wakeups_not_lost_napping :
    ∃ tr c, (program 100 : Program ℕ ℕ _ _).InnerRun true ⟨0, 0, true⟩ tr c ∧
      0 ∈ c.mem.asleep 0 ∧ c.mem.mem.signalled 0 = true ∧
        (c.mem.asleep 0 = [0] ∧
          ((∃ u k, c.pc u = .notify 0 k ∧ ∀ o, ∃ c' l,
              ((program 100).innerThreads true).step c (.run u o) = some (c', l) ∧
                0 ∉ c'.mem.asleep 0) ∨
            c.mem.waking 0 = some .flagged ∧ ∀ pick, ∃ c' l,
              ((program 100).innerThreads true).step c (.ambient (.signal 0 pick)) = some (c', l) ∧
                0 ∉ c'.mem.asleep 0)) := by
  obtain ⟨tr, c, hr, hp, -⟩ := ((program 100).innerThreads true).exists_run_of_play
    ((program 100).innerStart ⟨0, 0, true⟩) nappingWaiter
    (p := fun s => 0 ∈ s.1.mem.asleep 0 ∧ s.1.mem.mem.signalled 0 = true) (by decide)
  simp only [decide_eq_true_eq] at hp
  exact ⟨tr, c, hr, hp.1, hp.2, (wakeups_not_lost 100 _ hr 0 0).2 hp.1 hp.2⟩

end Blocking

/-! ## The private locks are leaves -/

/-- The private locks are leaves: who holds one waits for nobody. -/
structure LeafLocks {Pc Choice : Type} (P : Program σ ρ Pc Choice) (blocking : Bool)
    (c : Threads.Conf (InnerMem σ Tid) Tid (InnerPc Pc)) : Prop where
  /-- A private lock has one holder. -/
  exclusive : ∀ {l t u}, (c.pc t).holds P blocking = some l → (c.pc u).holds P blocking = some l → t = u
  /-- A thread that holds a private lock can step whatever the outside world decides, and comes nearer
  to dropping it. -/
  thread : ∀ {l t}, (c.pc t).holds P blocking = some l → ∀ o, ∃ d p,
    c.mem.fire P blocking t o (c.pc t) = some (d, p) ∧ p.togo < (c.pc t).togo
  /-- So can the Timer, which holds the lock of a waiter alone. -/
  timer : ∀ {a}, (c.mem.waking a).isSome →
    (∀ t, (c.pc t).holds P blocking ≠ some (.latch a)) ∧ ∀ pick, ∃ m' b,
      c.mem.ambient (.signal a pick) = some (m', b) ∧
        Waking.togo (m'.waking a) < Waking.togo (c.mem.waking a)
  /-- A thread that could execute its primitive if that was atomic can step, or the holder of a private
  lock can. -/
  progress : ∀ {t fault}, ((P.code (c.pc t).outer).fire c.mem.mem t fault).isSome →
    (∃ o, (c.mem.fire P blocking t o (c.pc t)).isSome) ∨ HolderSteps P blocking c.mem c.pc

/-- The private locks of a typed program are leaves. -/
lemma Program.Typed.leafLocks {Pc Choice : Type} {P : Program σ ρ Pc Choice} (T : P.Typed Tid)
    {blocking : Bool} {s₀ : Setup σ} {tr : List (Program.InnerLabel σ ρ Choice Tid)}
    {c : Threads.Conf (InnerMem σ Tid) Tid (InnerPc Pc)} (h : P.InnerRun blocking s₀ tr c) :
    LeafLocks P blocking c where
  exclusive ht hu := (Program.locks_held h).holds_inj ht hu
  thread {_ t} hl _ := InnerMem.fire_of_holds ((Program.locks_held h).placed t) hl
  timer {a} ha := by
    refine ⟨fun t ht => ?_, fun pick => (Program.wakes_given h).signal ha pick⟩
    rw [(Program.locks_held h).waking_eq_none ht] at ha
    cases ha
  progress hf := T.inner_progress h hf

/-- **The private locks cause no deadlock**: in every run of a blocking monitor and of a Tokio monitor
they are leaves.

**Proof sketch.** Both programs are typed, and the private locks of a typed program are leaves: a lock
has one holder (`Program.locks_held`), the holder can step (`InnerMem.fire_of_holds`), and so nobody
waits for ever (`Program.Typed.inner_progress`). -/
theorem private_locks_are_leaves (maxInstant : ℕ) (s₀ : Setup σ) :
    (∀ (tr : List (Program.InnerLabel σ ρ (Blocking.Choice σ ρ) Tid))
        (c : Threads.Conf (InnerMem σ Tid) Tid (InnerPc (Blocking.Pc σ ρ))),
      (Blocking.program maxInstant).InnerRun true s₀ tr c →
        LeafLocks (Blocking.program maxInstant) true c) ∧
    ∀ (tr : List (Program.InnerLabel σ ρ (Tokio.Choice σ ρ) Tid))
        (c : Threads.Conf (InnerMem σ Tid) Tid (InnerPc (Tokio.Pc σ ρ))),
      (Tokio.program maxInstant).InnerRun false s₀ tr c →
        LeafLocks (Tokio.program maxInstant) false c :=
  ⟨fun _ _ h => (Blocking.typed maxInstant Tid).leafLocks h,
    fun _ _ h => (Tokio.typed maxInstant Tid).leafLocks h⟩

theorem private_locks_are_leaves_napping :
    ∃ tr c, (Blocking.program 100 : Program ℕ ℕ _ _).InnerRun true ⟨0, 0, true⟩ tr c ∧
      (c.pc 1).holds (Blocking.program 100) true = some (.latch 0) ∧
        LeafLocks (Blocking.program 100) true c := by
  obtain ⟨tr, c, hr, hp, -⟩ := ((Blocking.program 100).innerThreads true).exists_run_of_play
    ((Blocking.program 100).innerStart ⟨0, 0, true⟩) Blocking.nappingWaiter
    (p := fun s => (s.1.pc 1).holds (Blocking.program 100) true = some (.latch 0)) (by decide)
  simp only [decide_eq_true_eq] at hp
  exact ⟨tr, c, hr, hp, (private_locks_are_leaves 100 _).1 tr c hr⟩

end QubitLock
