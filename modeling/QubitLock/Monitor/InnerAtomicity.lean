import QubitLock.Library.Refinement
import QubitLock.Monitor.InnerLocks

set_option relaxedAutoImplicit false
set_option autoImplicit false

/-!
# The private locks make the primitives atomic

Under its mutex an operation on the registry reads the registry and later writes what it makes of what
it has read. Only the holder of the mutex writes the registry, so what a thread has read is still there
when it writes (`Snapshots`), and the operation happens as a whole at its write. A run with private
locks, read without the steps on them, is therefore a run of the program with atomic primitives. And
every run of the program is executed so: a thread takes the private lock of its primitive, executes it
and drops the lock before another thread moves.

## Main definitions

* `outerTrace`, `outerConf` — a trace and a configuration without the private locks.
* `Snapshots` — what a thread has read of the registry under its mutex is still there.

## Main results

* `Program.snapshots` — no operation on the registry writes what it makes of an old registry.
* `Program.inner_refines` — with its private locks a program does what it does with atomic primitives.
* `Program.run_iff_innerRun` — the two have the same runs, read without the steps on private locks.
-/

namespace QubitLock

variable {σ ρ K Tid Pc Choice : Type}

/-- The report of a primitive. -/
def InnerDid.outer : InnerDid σ ρ → Option (Did σ ρ)
  | .did d | .stored _ d => some d
  | _ => none

/-- The trace of a run without the steps on private locks. -/
def outerTrace (tr : List (Program.InnerLabel σ ρ Choice Tid)) :
    List (Program.Label σ ρ Choice Tid) :=
  tr.filterMap (Threads.Label.view InnerDid.outer some id)

/-- A configuration without the private locks. -/
def outerConf (c : Threads.Conf (InnerMem σ Tid) Tid (InnerPc Pc)) :
    Threads.Conf (Mem σ Tid) Tid Pc :=
  c.map InnerMem.mem InnerPc.outer

/-! ## The registry under its mutex -/

/-- A thread that has read the registry and has not yet written it has read what is there. -/
def Snapshots (m : InnerMem σ Tid) (pc : Tid → InnerPc Pc) : Prop :=
  ∀ t p r, pc t = .loaded p r → r = m.mem.registry

variable [DecidableEq Tid]

/-- Only the primitives under the mutex of the registry change it. -/
lemma Cmd.registry_of_fire {m : Mem σ Tid} {t : Tid} {fault : Option TimeError} {blocking : Bool}
    {c : Cmd σ ρ K} {d : Did σ ρ} {k : K} (hc : c.inner blocking ≠ some .registry)
    (h : c.fire m t fault = some (d, k)) : (m.effect t d).registry = m.registry := by
  by_cases hd : d = .slotEmpty
  · rw [hd]
    rfl
  · rw [m.effect_registry]
    cases Cmd.fire_reports h hd with
    | register | unregister | takeOne | takeAll => exact absurd rfl hc
    | _ => rfl

variable {P : Program σ ρ Pc Choice} {blocking : Bool} {m : InnerMem σ Tid} {t : Tid} {o : Outside}

/-- **Only the holder of its mutex changes the registry.** -/
lemma InnerStep.registry {p p' : InnerPc Pc} {d : InnerDid σ ρ}
    (h : InnerStep P blocking m t o p d p') (hp : p.holds P blocking ≠ some .registry) :
    (m.effect t d).mem.registry = m.mem.registry := by
  cases h with
  | plain hnone hf => exact Cmd.registry_of_fire (by rw [hnone]; simp) hf
  | store => exact absurd rfl hp
  | _ => rfl

/-- A step of a thread keeps what the threads have read of the registry. -/
lemma Snapshots.did {pc : Tid → InnerPc Pc} {d : InnerDid σ ρ} {p : InnerPc Pc} (h : Snapshots m pc)
    (hlocks : LocksHeld P blocking m pc) (hs : InnerStep P blocking m t o (pc t) d p) :
    Snapshots (m.effect t d) (Function.update pc t p) := by
  intro u q r hu
  by_cases hut : u = t
  · subst hut
    rw [Function.update_self] at hu
    generalize pc u = q' at hs
    cases hs with
    | load =>
      cases hu
      rfl
    | _ => cases hu
  · rw [Function.update_of_ne hut] at hu
    have hread : r = m.mem.registry := h u q r hu
    have hholds : (pc u).holds P blocking = some .registry := by
      rw [hu]
      rfl
    -- the other thread does not hold the mutex, so it leaves the registry alone
    rw [hs.registry fun ht => hut (hlocks.holds_inj hholds ht)]
    exact hread

/-- **What the Timer can do with private locks**: what it does without them, or a step on the lock of a
waiter. -/
lemma InnerMem.ambient_cases {m m' : InnerMem σ Tid} {e : InnerEvent Tid}
    {b : Option (TimerDid Tid)} (h : m.ambient e = some (m', b)) :
    (∃ e' b', b = some b' ∧ m.mem.timer e' = some (m'.mem, b')) ∨ b = none ∧ m'.mem = m.mem := by
  cases e with
  | tick d =>
    simp only [ambient, Option.map_eq_some_iff, Prod.mk.injEq] at h
    obtain ⟨⟨n, b'⟩, hn, rfl, rfl⟩ := h
    exact .inl ⟨_, b', rfl, hn⟩
  | complete t r =>
    simp only [ambient, Option.map_eq_some_iff, Prod.mk.injEq] at h
    obtain ⟨⟨n, b'⟩, hn, rfl, rfl⟩ := h
    exact .inl ⟨_, b', rfl, hn⟩
  | wake a spurious =>
    simp only [ambient] at h
    split at h
    · cases h
      exact .inr ⟨rfl, rfl⟩
    · cases h
  | signal a pick =>
    simp only [ambient] at h
    split at h
    · cases h
    · simp only [Option.map_eq_some_iff, Prod.mk.injEq] at h
      obtain ⟨⟨n, b'⟩, hn, rfl, rfl⟩ := h
      exact .inl ⟨_, b', rfl, hn⟩
    · cases h
      exact .inr ⟨rfl, rfl⟩
    · cases h
      exact .inr ⟨rfl, rfl⟩

/-- The Timer leaves the registry alone. -/
lemma InnerMem.ambient_registry {m' : InnerMem σ Tid} {e : InnerEvent Tid} {b : Option (TimerDid Tid)}
    (h : m.ambient e = some (m', b)) : m'.mem.registry = m.mem.registry := by
  rcases InnerMem.ambient_cases h with ⟨e', b', -, he⟩ | ⟨-, hmem⟩
  · exact (Mem.timer_frame he).registry
  · rw [hmem]

/-- **What a thread has read of the registry is still there when it writes**, in every run.

**Proof sketch.** A thread that has read the registry holds its mutex until it has written it. A step of
another thread changes the registry only if that thread holds the mutex too, which mutual exclusion
(`Program.locks_held`) forbids, and the Timer never touches the registry. -/
theorem Program.snapshots {s₀ : Setup σ} {tr : List (Program.InnerLabel σ ρ Choice Tid)}
    {c : Threads.Conf (InnerMem σ Tid) Tid (InnerPc Pc)} (h : P.InnerRun blocking s₀ tr c) :
    Snapshots c.mem c.pc := by
  refine Threads.Run.rule (I := fun _ m pc => Snapshots m pc) (P.innerThreads blocking) ?_ ?_ ?_ ?_ h
  · intro t p r ht
    cases ht
  · intro tr m pc t o d p hr hi hf
    have hlocks : LocksHeld P blocking m pc := Program.locks_held hr
    exact hi.did hlocks (InnerMem.step_of_fire (hlocks.placed t) hf)
  · intro tr m pc t x p _ hi hj u q r hu
    by_cases hut : u = t
    · subst hut
      rw [Function.update_self] at hu
      subst hu
      generalize pc u = q' at hj
      cases q' with
      | run =>
        simp only [innerThreads, Option.map_eq_some_iff] at hj
        obtain ⟨_, -, hj⟩ := hj
        cases hj
      | _ => cases hj
    · rw [Function.update_of_ne hut] at hu
      exact hi u q r hu
  · intro tr m pc e m' b _ hi he u q r hu
    rw [InnerMem.ambient_registry he]
    exact hi u q r hu

/-! ## A run with private locks is a run of the program -/

/-- **A step with private locks is a primitive or nothing at all**, if the thread has read what is in
the registry. -/
lemma InnerStep.outer {p p' : InnerPc Pc} {d : InnerDid σ ρ} (h : InnerStep P blocking m t o p d p')
    (hread : ∀ q r, p = .loaded q r → r = m.mem.registry) :
    (d.outer = none ∧ (m.effect t d).mem = m.mem ∧ p'.outer = p.outer) ∨
      ∃ d', d.outer = some d' ∧ (P.code p.outer).fire m.mem t o.fault = some (d', p'.outer) ∧
        (m.effect t d).mem = m.mem.effect t d' := by
  cases h with
  | plain _ hf => exact .inr ⟨_, rfl, hf, rfl⟩
  | store _ hf =>
    obtain rfl := hread _ _ rfl
    exact .inr ⟨_, rfl, hf, rfl⟩
  | woke hcode hset =>
    refine .inr ⟨_, rfl, ?_, rfl⟩
    simp [InnerPc.outer, hcode, Cmd.fire, hset]
  | flag hcode =>
    refine .inr ⟨_, rfl, ?_, rfl⟩
    simp [InnerPc.outer, hcode, Cmd.fire]
  | _ => exact .inl ⟨rfl, rfl, rfl⟩

/-- The obligations of the refinement. -/
lemma Program.inner_refines_threads (P : Program σ ρ Pc Choice) (blocking : Bool)
    (s₀ : Setup σ) :
    Threads.Refines (P.innerThreads blocking) P.threads
      (P.innerStart s₀ : Threads.Conf (InnerMem σ Tid) Tid (InnerPc Pc)) InnerMem.mem InnerPc.outer
      InnerDid.outer some id := by
  refine ⟨?_, ?_, ?_⟩
  · intro tr m pc t o d p hr hf
    have hs := InnerMem.step_of_fire ((Program.locks_held hr).placed t) hf
    rcases hs.outer (Program.snapshots hr t) with hhidden | ⟨d', hd, hf', hmem⟩
    · exact .inl hhidden
    · exact .inr ⟨o.fault, d', hd, hf', hmem⟩
  · intro p x p' hj
    cases p with
    | run q =>
      simp only [innerThreads, Option.map_eq_some_iff] at hj
      obtain ⟨q', hj, rfl⟩ := hj
      exact .inr ⟨x, rfl, hj⟩
    | _ => cases hj
  · intro m e m' b ha
    rcases InnerMem.ambient_cases ha with ⟨e', b', rfl, he⟩ | ⟨rfl, hmem⟩
    · exact .inr ⟨e', b', rfl, he⟩
    · exact .inl ⟨rfl, hmem⟩

/-- **With its private locks a program does what it does with atomic primitives**: a run with private
locks, read without the steps on them, is a run of the program.

**Proof sketch.** A primitive under a private lock happens as a whole at the step that reports it: at the
write of a registry operation, whose read is up to date by `Program.snapshots`, when `wait` finds the
flag set, and when `signal` sets it. All other steps on private locks change nothing outside. -/
theorem Program.inner_refines {s₀ : Setup σ} {tr : List (Program.InnerLabel σ ρ Choice Tid)}
    {c : Threads.Conf (InnerMem σ Tid) Tid (InnerPc Pc)} (h : P.InnerRun blocking s₀ tr c) :
    P.Run s₀ (outerTrace tr) (outerConf c) :=
  (P.inner_refines_threads blocking s₀).run h

/-! ## The other direction -/

/-- A memory with all private locks free. -/
def innerFree (m : Mem σ Tid) : InnerMem σ Tid := ⟨m, fun _ => none, fun _ => [], fun _ => none⟩

/-- A configuration with all private locks free. -/
def innerRest (c : Threads.Conf (Mem σ Tid) Tid Pc) : Threads.Conf (InnerMem σ Tid) Tid (InnerPc Pc) :=
  ⟨innerFree c.mem, fun t => .run (c.pc t)⟩

omit [DecidableEq Tid] in
/-- A private lock was taken and dropped. -/
lemma innerFree_unlocked (l : InnerLock) (x : Holder Tid) :
    Function.update (Function.update (fun _ => none) l (some x)) l none =
      fun _ => (none : Option (Holder Tid)) := by
  rw [Function.update_idem, Function.update_eq_self_iff]

omit [DecidableEq Tid] in
/-- Nobody was asleep to be woken. -/
lemma innerFree_notified (a pick : ℕ) :
    Function.update (fun _ => []) a (wakeOne [] pick) = fun _ => ([] : List Tid) := by
  rw [Function.update_eq_self_iff]
  rfl

section Complete

variable {init : Threads.Conf (InnerMem σ Tid) Tid (InnerPc Pc)}
  {tr : List (Program.InnerLabel σ ρ Choice Tid)} {m : Mem σ Tid} {pc : Tid → Pc}

/-- A thread at a place makes a step. -/
lemma Program.inner_cons {M : InnerMem σ Tid} {Q : Tid → InnerPc Pc} {t : Tid} {o : Outside}
    {q k : InnerPc Pc} {d : InnerDid σ ρ}
    (h : (P.innerThreads blocking).Run init tr ⟨M, Function.update Q t q⟩)
    (hf : M.fire P blocking t o q = some (d, k)) :
    (P.innerThreads blocking).Run init (.did t d :: tr) ⟨M.effect t d, Function.update Q t k⟩ := by
  have hfire : (P.innerThreads blocking).fire M t o (Function.update Q t q t) = some (d, k) := by
    rw [Function.update_self]
    exact hf
  have hstep := (P.innerThreads blocking).step_run hfire
  rw [Function.update_idem] at hstep
  exact .cons (.run t o) h hstep

/-- **A primitive is executed with the private locks**: its lock is taken, it is executed and the lock
is dropped.

**Proof sketch.** By the primitive. A free lock can be taken at once, and the places of the primitive
lead to its end without waiting, because nobody else moves and `wait` finds the flag set. -/
lemma Program.inner_fire (h : (P.innerThreads blocking).Run init tr (innerRest ⟨m, pc⟩)) {t : Tid}
    {fault : Option TimeError} {d : Did σ ρ} {p : Pc}
    (hf : (P.code (pc t)).fire m t fault = some (d, p)) :
    ∃ tr', (P.innerThreads blocking).Run init tr'
      (innerRest ⟨m.effect t d, Function.update pc t p⟩) ∧
        outerTrace tr' = .did t d :: outerTrace tr := by
  let o : Outside := ⟨fault, false, 0⟩
  have h₀ : (P.innerThreads blocking).Run init tr
      ⟨innerFree m, Function.update (fun u => InnerPc.run (pc u)) t (.run (pc t))⟩ := by
    rw [Function.update_eq_self]
    exact h
  simp only [innerRest, Threads.map_update]
  match hl : (P.code (pc t)).inner blocking with
  | none =>
    refine ⟨_, P.inner_cons (o := o) h₀ (d := .did d) (k := .run p) ?_, rfl⟩
    simp [InnerMem.fire, hl, hf, innerFree, o]
  | some l =>
    have h₁ := P.inner_cons (o := o) h₀ (d := .locked l) (k := .locked (pc t))
      (by simp [InnerMem.fire, hl, innerFree])
    generalize hc : P.code (pc t) = c at hf hl
    cases c with
    | park a k =>
      obtain ⟨hset, rfl, rfl⟩ : m.signalled a = true ∧ .woke a = d ∧ k = p := by
        simpa [Cmd.fire] using hf
      obtain ⟨-, rfl⟩ : blocking = true ∧ .latch a = l := by simpa [Cmd.inner] using hl
      have h₂ := P.inner_cons (o := o) h₁ (d := .did (.woke a)) (k := .unlock (.latch a) k)
        (by simp [InnerMem.fire, hc, InnerMem.effect, innerFree, hset])
      have h₃ := P.inner_cons (o := o) h₂ (d := .unlocked (.latch a)) (k := .run k) rfl
      simp only [InnerMem.effect, innerFree, innerFree_unlocked] at h₃
      exact ⟨_, h₃, rfl⟩
    | signal a k =>
      obtain ⟨rfl, rfl⟩ : .signalled a = d ∧ k = p := by simpa [Cmd.fire] using hf
      obtain ⟨-, rfl⟩ : blocking = true ∧ .latch a = l := by simpa [Cmd.inner] using hl
      have h₂ := P.inner_cons (o := o) h₁ (d := .did (.signalled a)) (k := .notify a k)
        (by simp [InnerMem.fire, hc])
      have h₃ := P.inner_cons (o := o) h₂ (d := .notified a 0) (k := .unlock (.latch a) k) rfl
      have h₄ := P.inner_cons (o := o) h₃ (d := .unlocked (.latch a)) (k := .run k) rfl
      simp only [InnerMem.effect, innerFree, innerFree_unlocked, innerFree_notified] at h₄
      exact ⟨_, h₄, rfl⟩
    | register | unregister | takeOne | takeAll =>
      cases hl
      have h₂ := P.inner_cons (o := o) h₁ (d := .loaded) (k := .loaded (pc t) m.registry)
        (by simp [InnerMem.fire, hc, InnerMem.effect, innerFree])
      have h₃ := P.inner_cons (o := o) h₂ (d := .stored m.registry d) (k := .unlock .registry p)
        (by simp [InnerMem.fire, hc, InnerMem.effect, innerFree, hf, o])
      have h₄ := P.inner_cons (o := o) h₃ (d := .unlocked .registry) (k := .run p) rfl
      simp only [InnerMem.effect, innerFree, innerFree_unlocked] at h₄
      exact ⟨_, h₄, rfl⟩
    | _ => cases hl

/-- The Timer makes a step. -/
lemma Program.inner_ambient {M N : InnerMem σ Tid} {Q : Tid → InnerPc Pc} {e : InnerEvent Tid}
    {b : Option (TimerDid Tid)} (h : (P.innerThreads blocking).Run init tr ⟨M, Q⟩)
    (he : M.ambient e = some (N, b)) :
    (P.innerThreads blocking).Run init (.ambient b :: tr) ⟨N, Q⟩ :=
  .cons (.ambient e) h ((P.innerThreads blocking).step_ambient he)

/-- The Timer wakes a waiter with its private lock: it takes the lock, sets the flag, calls
`notify_one` and drops the lock. -/
lemma Program.inner_wake (h : (P.innerThreads blocking).Run init tr (innerRest ⟨m, pc⟩)) {a : ℕ}
    {spurious : Bool} {m' : Mem σ Tid} {b : TimerDid Tid}
    (he : m.timer (InnerMem.wakeEvent a spurious) = some (m', b)) :
    ∃ tr', (P.innerThreads blocking).Run init tr' (innerRest ⟨m', pc⟩) ∧
      outerTrace tr' = .ambient b :: outerTrace tr := by
  let M (n : Mem σ Tid) (w : Waking) : InnerMem σ Tid :=
    ⟨n, Function.update (fun _ => none) (.latch a) (some .timer), fun _ => [],
      Function.update (fun _ => none) a (some w)⟩
  have h₁ := P.inner_ambient (e := .wake a spurious) (N := M m (.locked spurious)) (b := none) h
    (by simp [InnerMem.ambient, innerFree, he, M])
  have h₂ := P.inner_ambient (e := .signal a 0) (N := M m' .flagged) (b := some b) h₁
    (by simp [InnerMem.ambient, he, M])
  have h₃ := P.inner_ambient (e := .signal a 0) (N := M m' .notified) (b := none) h₂
    (by simp [InnerMem.ambient, M, innerFree_notified])
  have h₄ := P.inner_ambient (e := .signal a 0) (N := innerFree m') (b := none) h₃
    (by simp [InnerMem.ambient, M, innerFree])
  exact ⟨_, h₄, rfl⟩

/-- **Every run of a program is executed with its private locks.**

**Proof sketch.** Induction on the run. Between two steps all private locks are free and all threads are
in user code or between primitives, so each step is played from there: a primitive by taking its lock,
doing its work and dropping the lock (`inner_fire`), a wake by the four steps of `signal`
(`inner_wake`), and a choice as it is. -/
theorem Program.exists_innerRun {s₀ : Setup σ} {tr : List (Program.Label σ ρ Choice Tid)}
    {c : Threads.Conf (Mem σ Tid) Tid Pc} (h : P.Run s₀ tr c) :
    ∃ tr', P.InnerRun blocking s₀ tr' (innerRest c) ∧ outerTrace tr' = tr := by
  induction h with
  | nil => exact ⟨[], .nil, rfl⟩
  | @cons tr c c' l e _ hs ih =>
    obtain ⟨tr', hr, rfl⟩ := ih
    obtain ⟨m, pc⟩ := c
    rcases P.threads.step_eq_some hs with ⟨t, fault, d, p, -, hf, rfl, rfl⟩ |
      ⟨t, x, p, -, hj, rfl, rfl⟩ | ⟨e, m', b, -, he, rfl, rfl⟩
    · exact P.inner_fire hr hf
    · have hj : P.jump (pc t) x = some p := hj
      have hstep : (P.innerThreads blocking).step (innerRest ⟨m, pc⟩) (.choose t x) = some
          (⟨innerFree m, Function.update (fun u => InnerPc.run (pc u)) t (.run p)⟩, .chose t x) :=
        (P.innerThreads blocking).step_choose (by simp [innerThreads, hj])
      have hr' := Lts.Run.cons _ hr hstep
      simp only [innerRest, Threads.map_update]
      exact ⟨_, hr', rfl⟩
    · cases e with
      | tick d =>
        have he : m.timer (.tick d) = some (m', b) := he
        exact ⟨_, P.inner_ambient (e := .tick d) (b := some b) hr
          (by simp [InnerMem.ambient, innerFree, he]), rfl⟩
      | complete t r =>
        have he : m.timer (.complete t r) = some (m', b) := he
        exact ⟨_, P.inner_ambient (e := .complete t r) (b := some b) hr
          (by simp [InnerMem.ambient, innerFree, he]), rfl⟩
      | wake a => exact P.inner_wake hr (show m.timer (InnerMem.wakeEvent a false) = _ from he)
      | spurious a => exact P.inner_wake hr (show m.timer (InnerMem.wakeEvent a true) = _ from he)

/-- **The runs of a program are its runs with private locks**, read without the steps on them. -/
theorem Program.run_iff_innerRun {s₀ : Setup σ} {tr : List (Program.Label σ ρ Choice Tid)}
    {c : Threads.Conf (Mem σ Tid) Tid Pc} :
    P.Run s₀ tr c ↔ ∃ tr' c', P.InnerRun blocking s₀ tr' c' ∧ outerTrace tr' = tr ∧ outerConf c' = c := by
  constructor
  · intro h
    obtain ⟨tr', hr, htr⟩ : ∃ tr', P.InnerRun blocking s₀ tr' (innerRest c) ∧ outerTrace tr' = tr :=
      Program.exists_innerRun h
    exact ⟨tr', innerRest c, hr, htr, rfl⟩
  · rintro ⟨tr', c', hr, rfl, rfl⟩
    exact Program.inner_refines hr

end Complete

end QubitLock
