import QubitLock.Monitor.Client

set_option relaxedAutoImplicit false
set_option autoImplicit false

/-!
# The private locks inside a monitor

The primitives that touch the registry or a waiter object are not atomic in the source. The registry is
behind a mutex of its own (`internal/blocking_waiter_registry.rs`, the field `waiters` of
`TokioMonitor`), and its operations read and write the next identifier and the tree of the waiters one
after the other. The latch of a blocking waiter is a flag behind a mutex with a condition variable
(`internal/blocking_condition_waiter.rs`): `wait` sleeps on the condition variable while the flag is
not set, and `signal` sets the flag and calls `notify_one` before it drops its guard. The Timer signals
a waiter in the same way when it wakes the waker of that waiter.

This file executes a program with these locks. An operation on the registry takes two steps under its
mutex: it reads the registry, and later it writes what it makes of what it has read, so without the
mutex the writes of others in between would be lost. A condition variable may wake a thread for no
reason, and `notify_one` wakes any one of the sleeping threads. All private mutexes recover from
poisoning, so a panic inside `register` only drops its guard.

Which place holds which lock is a matter of the code alone, and so is mutual exclusion.

## Main definitions

* `InnerLock`, `Cmd.inner` — the private locks, and which primitive is executed under which.
* `InnerMem`, `InnerPc` — the memory with the private locks, and the places inside a primitive.
* `InnerMem.fire`, `InnerMem.effect`, `InnerMem.ambient` — one step.
* `Program.innerThreads` — a program with its private locks.
* `InnerStep` — what a thread can do with private locks.
* `InnerPc.holds`, `LocksHeld` — the private lock that a thread holds, and agreement on it.

## Main results

* `InnerMem.step_of_fire` — the steps of a thread at a place that belongs to its code.
* `Program.locks_held` — mutual exclusion of the private locks.
-/

namespace QubitLock

/-- The private locks of a monitor. -/
inductive InnerLock where
  /-- The mutex around the registry. -/
  | registry
  /-- The mutex around the flag of a waiter. -/
  | latch (waiter : ℕ)
  deriving DecidableEq

/-- Who holds a private lock. -/
inductive Holder (Tid : Type) where
  | thread (t : Tid)
  /-- The Timer, which signals a waiter. -/
  | timer

/-- How far the Timer is in `signal`. -/
inductive Waking where
  /-- It has the lock; the wake may have no reason. -/
  | locked (spurious : Bool)
  /-- It has set the flag. -/
  | flagged
  /-- It has called `notify_one`. -/
  | notified

/-- The memory of a monitor with its private locks. -/
structure InnerMem (σ Tid : Type) where
  mem : Mem σ Tid
  /-- The holders of the private locks. -/
  holder : InnerLock → Option (Holder Tid)
  /-- The threads that sleep on the condition variable of a waiter. -/
  asleep : ℕ → List Tid
  /-- The Timer in `signal` of a waiter. -/
  waking : ℕ → Option Waking

/-- The places inside a primitive. -/
inductive InnerPc (Pc : Type) where
  /-- Before the primitive. -/
  | run (p : Pc)
  /-- It has the private lock. -/
  | locked (p : Pc)
  /-- An operation on the registry has read it and will write what it makes of what it has read. -/
  | loaded (p : Pc) (registry : WaiterRegistry ℕ)
  /-- `wait`: the flag was not set. -/
  | sleep (p : Pc) (waiter : ℕ)
  /-- `wait`: inside `Condvar::wait`, without the lock. -/
  | blocked (p : Pc) (waiter : ℕ)
  /-- `wait`: `Condvar::wait` takes the lock again. -/
  | relock (p : Pc) (waiter : ℕ)
  /-- `signal`: the flag is set. -/
  | notify (waiter : ℕ) (k : Pc)
  /-- The guard of the private lock is about to be dropped. -/
  | unlock (l : InnerLock) (k : Pc)

/-- The reports of a program with its private locks. -/
inductive InnerDid (σ ρ : Type) where
  | did (d : Did σ ρ)
  | locked (l : InnerLock)
  | loaded
  /-- A primitive on the registry that was read earlier. -/
  | stored (registry : WaiterRegistry ℕ) (d : Did σ ρ)
  | found (waiter : ℕ)
  | slept (waiter : ℕ)
  | awoke (waiter : ℕ)
  | notified (waiter pick : ℕ)
  | unlocked (l : InnerLock)

/-- What the outside world decides in a step. -/
structure Outside where
  fault : Option TimeError
  /-- The condition variable wakes a thread for no reason. -/
  spurious : Bool
  /-- Which of the sleeping threads `notify_one` wakes. -/
  pick : ℕ

/-- What the Timer does on its own. -/
inductive InnerEvent (Tid : Type) where
  | tick (d : ℕ)
  | complete (t : Tid) (r : Except TimeError Unit)
  /-- It begins to signal a waiter. -/
  | wake (waiter : ℕ) (spurious : Bool)
  /-- It goes on in `signal`. -/
  | signal (waiter pick : ℕ)

variable {σ ρ K Tid Pc Choice : Type}

/-- The private lock under which a primitive is executed. A Tokio waiter is signalled by one atomic
operation of its `Notify`, so only a blocking one has a latch with a lock. -/
def Cmd.inner (blocking : Bool) : Cmd σ ρ K → Option InnerLock
  | .register _ | .unregister _ _ | .takeOne _ | .takeAll _ => some .registry
  | .park a _ | .signal a _ => if blocking then some (.latch a) else none
  | _ => none

/-- The abstract place of a thread: a primitive has happened once it has read or changed the memory. -/
def InnerPc.outer : InnerPc Pc → Pc
  | .run p | .locked p | .loaded p _ | .sleep p _ | .blocked p _ | .relock p _ => p
  | .notify _ k | .unlock _ k => k

/-- Wakes one of the sleeping threads. -/
def wakeOne (sleepers : List Tid) (pick : ℕ) : List Tid := sleepers.eraseIdx (pick % sleepers.length)

namespace InnerMem

/-- A step of a thread. -/
def fire (P : Program σ ρ Pc Choice) (blocking : Bool) [DecidableEq Tid] (m : InnerMem σ Tid) (t : Tid)
    (o : Outside) : InnerPc Pc → Option (InnerDid σ ρ × InnerPc Pc)
  | .run p =>
    match (P.code p).inner blocking with
    | none => ((P.code p).fire m.mem t o.fault).map fun (d, k) => (.did d, .run k)
    | some l => if (m.holder l).isNone then some (.locked l, .locked p) else none
  | .locked p =>
    match P.code p with
    | .park a k =>
      if m.mem.signalled a then some (.did (.woke a), .unlock (.latch a) k)
      else some (.found a, .sleep p a)
    | .signal a k => some (.did (.signalled a), .notify a k)
    | _ => some (.loaded, .loaded p m.mem.registry)
  | .loaded p r =>
    ((P.code p).fire { m.mem with registry := r } t o.fault).map fun (d, k) =>
      (.stored r d, .unlock .registry k)
  | .sleep p a => some (.slept a, .blocked p a)
  | .blocked p a =>
    if t ∈ m.asleep a ∧ o.spurious = false then none else some (.awoke a, .relock p a)
  | .relock p a => if (m.holder (.latch a)).isNone then some (.locked (.latch a), .locked p) else none
  | .notify a k => some (.notified a o.pick, .unlock (.latch a) k)
  | .unlock l k => some (.unlocked l, .run k)

variable [DecidableEq Tid]

/-- The effect of a report. -/
def effect (m : InnerMem σ Tid) (t : Tid) : InnerDid σ ρ → InnerMem σ Tid
  | .did d => { m with mem := m.mem.effect t d }
  | .locked l => { m with holder := Function.update m.holder l (some (.thread t)) }
  | .loaded | .found _ => m
  | .stored r d => { m with mem := { m.mem with registry := r }.effect t d }
  | .slept a =>
    { m with
      holder := Function.update m.holder (.latch a) none
      asleep := Function.update m.asleep a (t :: m.asleep a) }
  | .awoke a => { m with asleep := Function.update m.asleep a ((m.asleep a).filter (· ≠ t)) }
  | .notified a pick => { m with asleep := Function.update m.asleep a (wakeOne (m.asleep a) pick) }
  | .unlocked l => { m with holder := Function.update m.holder l none }

/-- The Timer wakes the waker of a waiter, for no reason or because a future has completed. -/
def wakeEvent (a : ℕ) (spurious : Bool) : TimerEvent Tid := if spurious then .spurious a else .wake a

/-- A step of the Timer; `none` as its report is a step inside `signal`. -/
def ambient (m : InnerMem σ Tid) : InnerEvent Tid → Option (InnerMem σ Tid × Option (TimerDid Tid))
  | .tick d => (m.mem.timer (.tick d)).map fun (m', b) => ({ m with mem := m' }, some b)
  | .complete t r => (m.mem.timer (.complete t r)).map fun (m', b) => ({ m with mem := m' }, some b)
  | .wake a spurious =>
    if (m.holder (.latch a)).isNone && (m.mem.timer (wakeEvent a spurious)).isSome then
      some ({ m with
        holder := Function.update m.holder (.latch a) (some .timer)
        waking := Function.update m.waking a (some (.locked spurious)) }, none)
    else none
  | .signal a pick =>
    match m.waking a with
    | none => none
    | some (.locked spurious) => (m.mem.timer (wakeEvent a spurious)).map fun (m', b) =>
      ({ m with mem := m', waking := Function.update m.waking a (some .flagged) }, some b)
    | some .flagged =>
      some ({ m with
        asleep := Function.update m.asleep a (wakeOne (m.asleep a) pick)
        waking := Function.update m.waking a (some .notified) }, none)
    | some .notified =>
      some ({ m with
        holder := Function.update m.holder (.latch a) none
        waking := Function.update m.waking a none }, none)

end InnerMem

/-- A program with its private locks. -/
def Program.innerThreads [DecidableEq Tid] (P : Program σ ρ Pc Choice) (blocking : Bool) :
    Threads (InnerMem σ Tid) Tid (InnerPc Pc) Outside (InnerDid σ ρ) Choice (InnerEvent Tid)
      (Option (TimerDid Tid)) where
  fire m t o p := m.fire P blocking t o p
  effect m t d := m.effect t d
  jump
    | .run p, x => (P.jump p x).map .run
    | _, _ => none
  ambient m e := m.ambient e

/-- The start of a program on a fresh monitor, with all private locks free. -/
def Program.innerStart (P : Program σ ρ Pc Choice) (s₀ : Setup σ) :
    Threads.Conf (InnerMem σ Tid) Tid (InnerPc Pc) :=
  ⟨⟨.init s₀.poisons s₀.value s₀.clock, fun _ => none, fun _ => [], fun _ => none⟩,
    fun _ => .run P.idle⟩

/-- The labels of the runs with private locks. -/
abbrev Program.InnerLabel (σ ρ Choice Tid : Type) :=
  Threads.Label Tid (InnerDid σ ρ) Choice (Option (TimerDid Tid))

/-- The runs of a program on a fresh monitor, with its private locks. -/
abbrev Program.InnerRun [DecidableEq Tid] (P : Program σ ρ Pc Choice) (blocking : Bool) (s₀ : Setup σ)
    (tr : List (Program.InnerLabel σ ρ Choice Tid))
    (c : Threads.Conf (InnerMem σ Tid) Tid (InnerPc Pc)) : Prop :=
  (P.innerThreads blocking).Run (P.innerStart s₀) tr c

/-! ## What a thread can do -/

/-- Whether a place inside a primitive belongs to its code. -/
def InnerPc.Placed (P : Program σ ρ Pc Choice) (blocking : Bool) : InnerPc Pc → Prop
  | .locked p => ((P.code p).inner blocking).isSome
  | .loaded p _ => (P.code p).inner blocking = some .registry
  | .sleep p a | .blocked p a | .relock p a => blocking = true ∧ ∃ k, P.code p = .park a k
  | _ => True

/-- What a thread can do with private locks. -/
inductive InnerStep (P : Program σ ρ Pc Choice) (blocking : Bool) (m : InnerMem σ Tid) (t : Tid)
    (o : Outside) : InnerPc Pc → InnerDid σ ρ → InnerPc Pc → Prop
  /-- A primitive without a private lock. -/
  | plain {p k : Pc} {d : Did σ ρ} (hp : (P.code p).inner blocking = none)
      (hf : (P.code p).fire m.mem t o.fault = some (d, k)) :
      InnerStep P blocking m t o (.run p) (.did d) (.run k)
  | acquire {p : Pc} {l : InnerLock} (hp : (P.code p).inner blocking = some l)
      (hfree : m.holder l = none) : InnerStep P blocking m t o (.run p) (.locked l) (.locked p)
  /-- An operation on the registry reads it. -/
  | load {p : Pc} (hp : (P.code p).inner blocking = some .registry) :
      InnerStep P blocking m t o (.locked p) .loaded (.loaded p m.mem.registry)
  /-- It writes what it makes of what it has read. -/
  | store {p k : Pc} {r : WaiterRegistry ℕ} {d : Did σ ρ}
      (hp : (P.code p).inner blocking = some .registry)
      (hf : (P.code p).fire { m.mem with registry := r } t o.fault = some (d, k)) :
      InnerStep P blocking m t o (.loaded p r) (.stored r d) (.unlock .registry k)
  | woke {p k : Pc} {a : ℕ} (hp : P.code p = .park a k) (hset : m.mem.signalled a = true) :
      InnerStep P blocking m t o (.locked p) (.did (.woke a)) (.unlock (.latch a) k)
  | found {p k : Pc} {a : ℕ} (hp : P.code p = .park a k) (hset : m.mem.signalled a = false) :
      InnerStep P blocking m t o (.locked p) (.found a) (.sleep p a)
  | flag {p k : Pc} {a : ℕ} (hp : P.code p = .signal a k) :
      InnerStep P blocking m t o (.locked p) (.did (.signalled a)) (.notify a k)
  | sleep {p : Pc} {a : ℕ} : InnerStep P blocking m t o (.sleep p a) (.slept a) (.blocked p a)
  | awake {p : Pc} {a : ℕ} (hup : t ∈ m.asleep a → o.spurious = true) :
      InnerStep P blocking m t o (.blocked p a) (.awoke a) (.relock p a)
  | relock {p : Pc} {a : ℕ} (hfree : m.holder (.latch a) = none) :
      InnerStep P blocking m t o (.relock p a) (.locked (.latch a)) (.locked p)
  | notify {k : Pc} {a : ℕ} :
      InnerStep P blocking m t o (.notify a k) (.notified a o.pick) (.unlock (.latch a) k)
  | unlock {k : Pc} {l : InnerLock} : InnerStep P blocking m t o (.unlock l k) (.unlocked l) (.run k)

/-- A primitive under a private lock is one on the registry, or `wait` or `signal` of a blocking
waiter. -/
lemma Cmd.inner_cases {blocking : Bool} {c : Cmd σ ρ K} {l : InnerLock}
    (h : c.inner blocking = some l) :
    (l = .registry ∧ (∀ a k, c ≠ .park a k) ∧ ∀ a k, c ≠ .signal a k) ∨
      ∃ a, l = .latch a ∧ blocking = true ∧ ((∃ k, c = .park a k) ∨ ∃ k, c = .signal a k) := by
  cases c with
  | register | unregister | takeOne | takeAll =>
    cases h
    exact .inl ⟨rfl, by simp, by simp⟩
  | park a k =>
    simp only [inner, Option.ite_none_right_eq_some, Option.some.injEq] at h
    exact .inr ⟨a, h.2.symm, h.1, .inl ⟨k, rfl⟩⟩
  | signal a k =>
    simp only [inner, Option.ite_none_right_eq_some, Option.some.injEq] at h
    exact .inr ⟨a, h.2.symm, h.1, .inr ⟨k, rfl⟩⟩
  | _ => cases h

variable [DecidableEq Tid] {P : Program σ ρ Pc Choice} {blocking : Bool} {m : InnerMem σ Tid} {t : Tid}
  {o : Outside}

/-- **What a thread can do with private locks**, at a place that belongs to its code. -/
lemma InnerMem.step_of_fire {p p' : InnerPc Pc} {d : InnerDid σ ρ} (hp : p.Placed P blocking)
    (h : m.fire P blocking t o p = some (d, p')) : InnerStep P blocking m t o p d p' := by
  cases p with
  | run p =>
    simp only [fire] at h
    split at h
    · rename_i hnone
      simp only [Option.map_eq_some_iff, Prod.mk.injEq] at h
      obtain ⟨⟨d', k⟩, hf, rfl, rfl⟩ := h
      exact .plain hnone hf
    · rename_i l hl
      split at h
      · rename_i hfree
        cases h
        exact .acquire hl (Option.isNone_iff_eq_none.mp hfree)
      · cases h
  | locked p =>
    obtain ⟨l, hl⟩ := Option.isSome_iff_exists.mp hp
    simp only [fire] at h
    split at h
    · rename_i a k hcode
      split at h
      · rename_i hset
        cases h
        exact .woke hcode hset
      · rename_i hset
        cases h
        exact .found hcode (by simpa using hset)
    · rename_i a k hcode
      cases h
      exact .flag hcode
    · rename_i hpark hsignal
      cases h
      rcases Cmd.inner_cases hl with ⟨rfl, -, -⟩ | ⟨a, -, -, ⟨k', hk⟩ | ⟨k', hk⟩⟩
      · exact .load hl
      · exact absurd hk (hpark a k')
      · exact absurd hk (hsignal a k')
  | loaded p r =>
    simp only [fire, Option.map_eq_some_iff, Prod.mk.injEq] at h
    obtain ⟨⟨d', k⟩, hf, rfl, rfl⟩ := h
    exact .store hp hf
  | sleep p a =>
    cases h
    exact .sleep
  | blocked p a =>
    simp only [fire] at h
    split at h
    · cases h
    · rename_i hup
      cases h
      exact .awake fun hmem => by simpa [hmem] using hup
  | relock p a =>
    simp only [fire] at h
    split at h
    · rename_i hfree
      cases h
      exact .relock (Option.isNone_iff_eq_none.mp hfree)
    · cases h
  | notify a k =>
    cases h
    exact .notify
  | unlock l k =>
    cases h
    exact .unlock

omit [DecidableEq Tid] in
/-- A step leads to a place that belongs to the code. -/
lemma InnerStep.placed {p p' : InnerPc Pc} {d : InnerDid σ ρ} (hp : p.Placed P blocking)
    (h : InnerStep P blocking m t o p d p') : p'.Placed P blocking := by
  cases h with
  | acquire hl => simp [InnerPc.Placed, hl]
  | found hcode =>
    simp only [InnerPc.Placed, hcode, Cmd.inner] at hp ⊢
    split at hp
    · rename_i hb
      exact ⟨hb, _, rfl⟩
    · cases hp
  | relock =>
    obtain ⟨hb, k, hcode⟩ := hp
    simp [InnerPc.Placed, hcode, Cmd.inner, hb]
  | sleep | awake => exact hp
  | load hl => exact hl
  | _ => trivial

/-! ## The private locks -/

/-- The private lock that a thread holds at a place. -/
def InnerPc.holds (P : Program σ ρ Pc Choice) (blocking : Bool) : InnerPc Pc → Option InnerLock
  | .locked p => (P.code p).inner blocking
  | .loaded _ _ => some .registry
  | .sleep _ a | .notify a _ => some (.latch a)
  | .unlock l _ => some l
  | _ => none

/-- The holders of the private locks are the threads at places that hold them, and the Timer in
`signal`. -/
structure LocksHeld (P : Program σ ρ Pc Choice) (blocking : Bool) (m : InnerMem σ Tid)
    (pc : Tid → InnerPc Pc) : Prop where
  placed : ∀ t, (pc t).Placed P blocking
  thread : ∀ l t, m.holder l = some (.thread t) ↔ (pc t).holds P blocking = some l
  timer : ∀ a, m.holder (.latch a) = some .timer ↔ (m.waking a).isSome
  registry : m.holder .registry ≠ some .timer

/-- A thread moves to another place: it keeps its private lock, takes one that is free, or drops it.

**Proof sketch.** Only the locks that the thread holds before or after its step change hands. The lock
that it holds before is not held by another thread or by the Timer, and neither is the lock that it
holds after, which was free or its own. -/
lemma LocksHeld.move {pc : Tid → InnerPc Pc} {m' : InnerMem σ Tid} {p : InnerPc Pc}
    (h : LocksHeld P blocking m pc) (hp : p.Placed P blocking)
    (hfree : ∀ l, p.holds P blocking = some l →
      (pc t).holds P blocking = some l ∨ m.holder l = none)
    (hholder : ∀ l, m'.holder l = if p.holds P blocking = some l then some (.thread t)
      else if (pc t).holds P blocking = some l then none else m.holder l)
    (hwaking : m'.waking = m.waking) : LocksHeld P blocking m' (Function.update pc t p) := by
  -- the Timer holds no lock that the thread holds before or after its step
  have htimer : ∀ l, m'.holder l = some .timer ↔ m.holder l = some .timer := by
    intro l
    rw [hholder]
    by_cases hnew : p.holds P blocking = some l
    · rw [if_pos hnew]
      rcases hfree l hnew with hold | hnone
      · simp [(h.thread l t).mpr hold]
      · simp [hnone]
    · rw [if_neg hnew]
      by_cases hold : (pc t).holds P blocking = some l
      · simp [hold, (h.thread l t).mpr hold]
      · simp [hold]
  refine ⟨fun u => ?_, fun l u => ?_, fun a => ?_, ?_⟩
  · by_cases hu : u = t
    · simpa [hu] using hp
    · simpa [hu] using h.placed u
  · by_cases hu : u = t
    · subst hu
      rw [hholder, Function.update_self]
      by_cases hnew : p.holds P blocking = some l
      · simp [hnew]
      · rw [if_neg hnew, iff_false_right hnew]
        by_cases hold : (pc u).holds P blocking = some l
        · simp [hold]
        · simpa [hold] using (h.thread l u).not.mpr hold
    · rw [hholder, Function.update_of_ne hu, ← h.thread l u]
      by_cases hnew : p.holds P blocking = some l
      · rw [if_pos hnew]
        rcases hfree l hnew with hold | hnone
        · simp [(h.thread l t).mpr hold]
        · simp [hnone, Ne.symm hu]
      · rw [if_neg hnew]
        by_cases hold : (pc t).holds P blocking = some l
        · simp [hold, (h.thread l t).mpr hold, Ne.symm hu]
        · simp [hold]
  · rw [htimer, hwaking, h.timer]
  · rw [ne_eq, htimer]
    exact h.registry

/-- A thread moves and keeps the private lock that it has. -/
lemma LocksHeld.keep {pc : Tid → InnerPc Pc} {m' : InnerMem σ Tid} {p : InnerPc Pc}
    (h : LocksHeld P blocking m pc) (hp : p.Placed P blocking)
    (hsame : p.holds P blocking = (pc t).holds P blocking) (hholder : m'.holder = m.holder)
    (hwaking : m'.waking = m.waking) : LocksHeld P blocking m' (Function.update pc t p) := by
  refine h.move hp (fun l hl => .inl (hsame ▸ hl)) (fun l => ?_) hwaking
  rw [hholder, hsame]
  by_cases hl : (pc t).holds P blocking = some l
  · rw [if_pos hl, (h.thread l t).mpr hl]
  · rw [if_neg hl, if_neg hl]

/-- A thread takes a private lock that is free. -/
lemma LocksHeld.acquire {pc : Tid → InnerPc Pc} {p : InnerPc Pc} {l : InnerLock}
    (h : LocksHeld P blocking m pc) (hp : p.Placed P blocking)
    (hold : (pc t).holds P blocking = none) (hnew : p.holds P blocking = some l)
    (hfree : m.holder l = none) :
    LocksHeld P blocking (m.effect t (.locked l : InnerDid σ ρ)) (Function.update pc t p) := by
  refine h.move hp (fun l' hl' => .inr ?_) (fun l' => ?_) rfl
  · obtain rfl : l = l' := Option.some.inj (hnew.symm.trans hl')
    exact hfree
  · simp only [InnerMem.effect, hnew, hold, Function.update_apply, Option.some.injEq, reduceCtorEq,
      if_false, eq_comm]

/-- A thread drops the private lock that it has. -/
lemma LocksHeld.release {pc : Tid → InnerPc Pc} {m' : InnerMem σ Tid} {p : InnerPc Pc} {l : InnerLock}
    (h : LocksHeld P blocking m pc) (hp : p.Placed P blocking)
    (hold : (pc t).holds P blocking = some l) (hnew : p.holds P blocking = none)
    (hholder : m'.holder = Function.update m.holder l none) (hwaking : m'.waking = m.waking) :
    LocksHeld P blocking m' (Function.update pc t p) := by
  refine h.move hp (fun l' hl' => ?_) (fun l' => ?_) hwaking
  · rw [hnew] at hl'
    cases hl'
  · simp only [hholder, hnew, hold, Function.update_apply, Option.some.injEq, reduceCtorEq, if_false,
      eq_comm]

/-- A step of a thread keeps the agreement on the private locks. -/
lemma LocksHeld.did {pc : Tid → InnerPc Pc} {d : InnerDid σ ρ} {p : InnerPc Pc}
    (h : LocksHeld P blocking m pc) (hs : InnerStep P blocking m t o (pc t) d p) :
    LocksHeld P blocking (m.effect t d) (Function.update pc t p) := by
  have hp : p.Placed P blocking := hs.placed (h.placed t)
  have hplaced := h.placed t
  generalize hq : pc t = q at hs hplaced
  cases hs with
  | plain | awake | notify => exact h.keep hp (by rw [hq]; rfl) rfl rfl
  | load hl => exact h.keep hp (by rw [hq]; exact hl.symm) rfl rfl
  | store => exact h.keep hp (by rw [hq]; rfl) rfl rfl
  | woke hcode | found hcode | flag hcode =>
    obtain ⟨l, hl⟩ := Option.isSome_iff_exists.mp hplaced
    refine h.keep hp ?_ rfl rfl
    rw [hq]
    show some _ = (P.code _).inner blocking
    rw [hcode] at hl ⊢
    simp only [Cmd.inner, Option.ite_none_right_eq_some] at hl
    simp [Cmd.inner, hl.1]
  | acquire hl hfree => exact h.acquire hp (by rw [hq]; rfl) hl hfree
  | relock hfree =>
    obtain ⟨hb, k, hcode⟩ := hplaced
    refine h.acquire hp (by rw [hq]; rfl) ?_ hfree
    simp [InnerPc.holds, hcode, Cmd.inner, hb]
  | sleep | unlock => exact h.release hp (by rw [hq]; rfl) rfl rfl rfl

/-- A step of the Timer keeps the agreement on the private locks.

**Proof sketch.** The Timer takes the lock of a waiter when it is free and drops it at the end of
`signal`; in between it keeps it, and it touches no other lock. -/
lemma LocksHeld.ambient {pc : Tid → InnerPc Pc} {m' : InnerMem σ Tid} {e : InnerEvent Tid}
    {b : Option (TimerDid Tid)} (h : LocksHeld P blocking m pc) (he : m.ambient e = some (m', b)) :
    LocksHeld P blocking m' pc := by
  have hkeep : m'.holder = m.holder → (∀ a, (m'.waking a).isSome = (m.waking a).isSome) →
      LocksHeld P blocking m' pc := fun h1 h2 =>
    ⟨h.placed, by rw [h1]; exact h.thread, fun a => by rw [h1, h2]; exact h.timer a,
      by rw [h1]; exact h.registry⟩
  -- the lock of a waiter passes to the Timer or back, and nobody else has it
  have hlatch : ∀ a x y, m'.holder = Function.update m.holder (.latch a) x →
      m'.waking = Function.update m.waking a y → (x = some .timer ∨ x = none) →
      (x = some .timer ↔ y.isSome) → (∀ t, m.holder (.latch a) ≠ some (.thread t)) →
      LocksHeld P blocking m' pc := by
    intro a x y hh hw hx hxy hno
    refine ⟨h.placed, fun l t => ?_, fun a' => ?_, ?_⟩
    · rw [← h.thread, hh]
      by_cases hl : l = .latch a
      · subst hl
        rw [Function.update_self, iff_false_right (hno t)]
        rcases hx with rfl | rfl <;> simp
      · rw [Function.update_of_ne hl]
    · rw [hh, hw]
      by_cases ha : a' = a
      · subst ha
        simpa using hxy
      · have hne : InnerLock.latch a' ≠ .latch a := by simpa using ha
        rw [Function.update_of_ne hne, Function.update_of_ne ha, h.timer]
    · rw [hh, Function.update_of_ne (by simp)]
      exact h.registry
  cases e with
  | tick | complete =>
    simp only [InnerMem.ambient, Option.map_eq_some_iff, Prod.mk.injEq] at he
    obtain ⟨⟨n, b'⟩, hn, rfl, rfl⟩ := he
    exact hkeep rfl fun _ => rfl
  | wake a spurious =>
    simp only [InnerMem.ambient] at he
    split at he
    · rename_i hfree
      cases he
      have hnone : m.holder (.latch a) = none := by simp_all
      exact hlatch a _ _ rfl rfl (.inl rfl) (by simp) (by simp [hnone])
    · cases he
  | signal a pick =>
    simp only [InnerMem.ambient] at he
    have hholds : ∀ w, m.waking a = some w → m.holder (.latch a) = some .timer := by
      intro w hw
      exact (h.timer a).mpr (by rw [hw]; rfl)
    split at he
    · cases he
    · rename_i spurious hw
      simp only [Option.map_eq_some_iff, Prod.mk.injEq] at he
      obtain ⟨⟨n, b'⟩, hn, rfl, rfl⟩ := he
      refine hkeep rfl fun a' => ?_
      by_cases ha : a' = a
      · simp [ha, hw]
      · simp [ha]
    · rename_i hw
      cases he
      refine hkeep rfl fun a' => ?_
      by_cases ha : a' = a
      · simp [ha, hw]
      · simp [ha]
    · rename_i hw
      cases he
      exact hlatch a _ _ rfl rfl (.inr rfl) (by simp) (by simp [hholds _ hw])

/-- **Mutual exclusion of the private locks**: in every run a private lock has the holder that the places
of the threads and of the Timer say.

**Proof sketch.** Induction on the run, with one lemma for the steps of threads and one for those of the
Timer. A choice is made at a place without a private lock. -/
theorem Program.locks_held {s₀ : Setup σ} {tr : List (Program.InnerLabel σ ρ Choice Tid)}
    {c : Threads.Conf (InnerMem σ Tid) Tid (InnerPc Pc)} (h : P.InnerRun blocking s₀ tr c) :
    LocksHeld P blocking c.mem c.pc := by
  refine Threads.Run.rule (I := fun _ m pc => LocksHeld P blocking m pc) (P.innerThreads blocking)
    ?_ ?_ ?_ ?_ h
  · exact ⟨fun t => trivial, by simp [innerStart, InnerPc.holds], by simp [innerStart],
      by simp [innerStart]⟩
  · intro tr m pc t o d p _ hi hf
    exact hi.did (InnerMem.step_of_fire (hi.placed t) hf)
  · intro tr m pc t x p _ hi hj
    generalize hq : pc t = q at hj
    cases q with
    | run q =>
      simp only [innerThreads, Option.map_eq_some_iff] at hj
      obtain ⟨q', -, rfl⟩ := hj
      exact hi.keep trivial (by rw [hq]; rfl) rfl rfl
    | _ => cases hj
  · intro tr m pc e m' b _ hi he
    exact hi.ambient he

omit [DecidableEq Tid] in
/-- A private lock has one holder. -/
lemma LocksHeld.holds_inj {pc : Tid → InnerPc Pc} {l : InnerLock} {u : Tid}
    (h : LocksHeld P blocking m pc) (ht : (pc t).holds P blocking = some l)
    (hu : (pc u).holds P blocking = some l) : t = u := by
  have h1 := (h.thread l t).mpr ht
  have h2 := (h.thread l u).mpr hu
  rw [h1] at h2
  simpa using h2

omit [DecidableEq Tid] in
/-- A thread and the Timer do not hold the same private lock. -/
lemma LocksHeld.waking_eq_none {pc : Tid → InnerPc Pc} {a : ℕ} (h : LocksHeld P blocking m pc)
    (ht : (pc t).holds P blocking = some (.latch a)) : m.waking a = none := by
  have h1 := (h.thread _ t).mpr ht
  have h2 := (h.timer a).not
  rw [h1] at h2
  simpa using h2

end QubitLock
