import QubitLock.Blocking.Calls
import QubitLock.Library.Simulation
import QubitLock.Monitor.Conduct
import QubitLock.Monitor.Expiry
import QubitLock.Monitor.Wakers

set_option relaxedAutoImplicit false
set_option autoImplicit false

/-!
# The deadline forms of a blocking predicate wait agree

`wait_while_with_deadline` polls the Timer once right after it has registered the deadline, and
returns `TimedOut` without evaluating the predicate again and without registering a waiter. The plain
path goes straight into `wait_while_with_timer_locked`, whose first guard wait makes the same poll and
whose loop then evaluates the predicate again. From the first check to that evaluation the state lock
is held, so the protected value is still the one on which the predicate answered `true`; a pure
predicate gives the same answer again. A Timer that is pending at the early poll and complete at the
next one is a Timer that the plain path finds complete at its first poll.

The relation `Alike` pairs the places of the two paths, and each path can follow the other whatever
the other threads and the Timer do. The remaining rounds are the same code on both sides.

`wait_while_for` with a representable deadline is the plain path, and so is interchangeable with
`wait_while_with_deadline`; `wait_while_with_total_timeout` is `wait_while_with_deadline`, called when
it sampled the clock.

## Main definitions

* `fastPath`, `plainPath` — the two paths behind a first check that answered `true`.
* `Alike` — the places of the two paths that belong together.
* `SameConduct` — two configurations that differ in thread `u` and cannot be told apart.

## Main results

* `alike_replaces` — the two paths follow each other.
* `deadline_forms_agree` — the three forms of a deadline agree.
-/

namespace QubitLock

section Held

variable {σ ρ Pc Choice Tid : Type} [DecidableEq Tid] {P : Program σ ρ Pc Choice}

/-- **While a thread holds the state lock**, the steps of the others and of the Timer change neither
the protected value nor, but for its completion, the Timer future of the thread. -/
lemma Program.Typed.kept_of_step (T : P.Typed Tid) {s₀ : Setup σ}
    {tr : List (Program.Label σ ρ Choice Tid)} {c c' : Threads.Conf (Mem σ Tid) Tid Pc}
    {e : Threads.Event Tid (Option TimeError) Choice (TimerEvent Tid)}
    {l : Program.Label σ ρ Choice Tid} {u : Tid} (h : P.Run s₀ tr c)
    (hs : P.threads.step c e = some (c', l)) (he : e.thread ≠ some u)
    (hheld : (T.typ (c.pc u)).holds = true) :
    c'.mem.value = c.mem.value ∧ (c'.mem.future u = c.mem.future u ∨
      ∃ f r, c.mem.future u = some f ∧ c'.mem.future u = some (f.complete r)) := by
  rcases P.threads.step_eq_some hs with ⟨t, o, d, p, rfl, hf, rfl, -⟩ |
    ⟨t, x, p, rfl, hj, rfl, -⟩ | ⟨a, m', b, rfl, ha, rfl, -⟩
  · have hut : u ≠ t := fun hut => he (congrArg some hut.symm)
    have hfires : T.Fires c.mem c.pc t d p := T.fires (T.owned h) hf
    exact ⟨value_of_isWrite (hfires.isWrite_of_ne hut hheld), .inl (Mem.effect_future_ne hut)⟩
  · exact ⟨rfl, .inl rfl⟩
  · refine ⟨(Mem.timer_frame ha).value, ?_⟩
    rcases future_timer ha u with hsame | ⟨f, r, hf, hf', -⟩
    · exact .inl hsame
    · exact .inr ⟨f, r, hf, hf'⟩

end Held

namespace Blocking

variable {σ ρ Tid : Type}

/-- `wait_while_with_deadline` behind a first check that answered `true`. -/
def fastPath (deadline : ℕ) (w : Condition σ ρ) : Pc σ ρ := .timerAt deadline (.loop w 1) true

/-- The future of the deadline goes straight into `wait_while_with_timer_locked`. -/
def plainPath (deadline : ℕ) (w : Condition σ ρ) : Pc σ ρ := .timerAt deadline (.loop w 1) false

/-- Where a predicate wait continues behind its first check: on its path while it has to wait. -/
def opening (w : Condition σ ρ) (path : Pc σ ρ) : Option Bool → Pc σ ρ
  | some false => .act w true
  | some true => path
  | none => .unwindGuard

/-- `wait_while_with_deadline` is a first check before the fast path. -/
lemma code_checkDeadline (maxInstant deadline : ℕ) (w : Condition σ ρ) :
    code maxInstant (.checkDeadline deadline w) =
      .check (w.waiting 0) (opening w (fastPath deadline w)) :=
  rfl

/-- `wait_while_for` with a representable deadline is a first check before the plain path. -/
lemma code_checkFor {maxInstant timeout start : ℕ} (w : Condition σ ρ) (ht : timeout ≠ 0)
    (hmax : start + timeout ≤ maxInstant) :
    code maxInstant (.checkFor timeout start w) =
      .check (w.waiting 0) (opening w (plainPath (start + timeout) w)) := by
  simp only [code]
  congr 1
  funext a
  rcases a with _ | _ | _
  · rfl
  · rfl
  · have hadd : checkedAdd maxInstant start timeout = .ok (start + timeout) :=
      checkedAdd_eq_ok.mpr ⟨rfl, hmax⟩
    simp only [if_neg ht, hadd]
    rfl

/-- The places of the fast path and of the plain path that belong together, in a memory of the fast
path. -/
inductive Alike (maxInstant : ℕ) (w : Condition σ ρ) (u : Tid) (m : Mem σ Tid) :
    Pc σ ρ → Pc σ ρ → Prop
  /-- The same code. -/
  | same (p : Pc σ ρ) : Alike maxInstant w u m p p
  /-- The first checks of `wait_while_with_deadline` and of `wait_while_for`. -/
  | opened (timeout start : ℕ) (ht : timeout ≠ 0) (hmax : start + timeout ≤ maxInstant) :
      Alike maxInstant w u m (.checkDeadline (start + timeout) w) (.checkFor timeout start w)
  /-- The registration of the deadline. -/
  | armed (deadline : ℕ) (hv : w.waiting 0 m.value = some true) :
      Alike maxInstant w u m (fastPath deadline w) (plainPath deadline w)
  /-- The early poll, and the first poll of the loop. -/
  | early (f : TimerFuture) (hv : w.waiting 0 m.value = some true) (hf : m.future u = some f)
      (hw : Waker.effective f.waker = none) :
      Alike maxInstant w u m (.earlyPoll w) (.pollNoWaiter (.loop w 1))
  /-- The return of the early poll, and the check after a guard wait that timed out. -/
  | gaveUp (hv : w.waiting 0 m.value = some true) :
      Alike maxInstant w u m (.finish (.timed (.ok .timedOut))) (.recheck w 1 .timedOut)

section Alike

variable {maxInstant : ℕ} {w : Condition σ ρ} {u : Tid} {m m' n : Mem σ Tid} {p q : Pc σ ρ}

/-- The pairs stay together while nobody changes the protected value and nobody but the Timer touches
the future. -/
lemma Alike.kept (h : Alike maxInstant w u m p q)
    (hkept : (typ p).holds = true → m'.value = m.value ∧ (m'.future u = m.future u ∨
      ∃ f r, m.future u = some f ∧ m'.future u = some (f.complete r))) :
    Alike maxInstant w u m' p q := by
  cases h with
  | same p => exact .same p
  | opened timeout start ht hmax => exact .opened timeout start ht hmax
  | armed deadline hv =>
    obtain ⟨hvalue, -⟩ := hkept rfl
    exact .armed deadline (by rwa [hvalue])
  | early f hv hf hw =>
    obtain ⟨hvalue, hsame | ⟨f', r, -, hcomplete⟩⟩ := hkept rfl
    · exact .early f (by rwa [hvalue]) (by rwa [hsame]) hw
    · exact .early (f'.complete r) (by rwa [hvalue]) hcomplete rfl
  | gaveUp hv =>
    obtain ⟨hvalue, -⟩ := hkept rfl
    exact .gaveUp (by rwa [hvalue])

/-- User code makes the same choices on both sides. -/
lemma Alike.jump_eq (h : Alike maxInstant w u m p q) (x : Choice σ ρ) : jump p x = jump q x := by
  cases h <;> rfl

/-- A check under the state lock. -/
lemma fire_check {K : Type} (hslot : m.slot u = true) (a : σ → Option Bool) (k : Option Bool → K)
    (o : Option TimeError) :
    (Cmd.check a k : Cmd σ ρ K).fire m u o = some (.checked m.value (a m.value), k (a m.value)) :=
  if_pos hslot

/-- A poll of a Timer future. -/
lemma fire_pollTimer {K : Type} {f : TimerFuture} (hf : m.future u = some f) (wk : Waker)
    (k : Poll → K) (o : Option TimeError) :
    (Cmd.pollTimer wk k : Cmd σ ρ K).fire m u o = some (.polled wk f.poll, k f.poll) := by
  simp only [Cmd.fire, hf, Option.map_some]

/-- The check after a guard wait that timed out, while the value is still the one of the first
check. -/
lemma fire_recheck (hw : w.Steady) (hv : w.waiting 0 m.value = some true) (hslot : m.slot u = true)
    (hmn : m.settled = n.settled) (o : Option TimeError) :
    (code maxInstant (.recheck w 1 .timedOut)).fire n u o =
      some (.checked n.value (some true), .finish (.timed (.ok .timedOut))) := by
  obtain ⟨hvalue, hslots, -⟩ := Mem.eq_of_settled hmn
  rw [code, fire_check (by rwa [← hslots]), hw, ← hvalue, hv]
  rfl

variable [DecidableEq Tid]

/-- A poll without a waker changes nothing while the stored waker wakes nobody. -/
lemma settled_effect_polled {f : TimerFuture} (hf : m.future u = some f)
    (hw : Waker.effective f.waker = none) (r : Poll) :
    (m.effect u (.polled .noop r : Did σ ρ)).settled = m.settled := by
  simp only [Mem.effect, Mem.settled, settled_update, hf, Option.map_some,
    TimerFuture.settled_polled_noop hw]
  congr 1
  funext t
  by_cases htu : t = u
  · rw [htu, Function.update_self, hf, Option.map_some]
  · rw [Function.update_of_ne htu]

/-- Both places wait, or both make the same report and are paired again. -/
def InStep (maxInstant : ℕ) (w : Condition σ ρ) (u : Tid) (m : Mem σ Tid) (p q : Pc σ ρ) : Prop :=
  ∀ o, ((code maxInstant p).fire m u o = none ∧ (code maxInstant q).fire m u o = none) ∨
    ∃ d p' q', (code maxInstant p).fire m u o = some (d, p') ∧
      (code maxInstant q).fire m u o = some (d, q') ∧ Alike maxInstant w u (m.effect u d) p' q'

/-- The early poll finds the Timer pending, and the loop is about to poll for the first time. -/
structure PollsEarly (w : Condition σ ρ) (u : Tid) (m : Mem σ Tid) (p q : Pc σ ρ)
    (f : TimerFuture) : Prop where
  fast : p = .earlyPoll w
  plain : q = .pollNoWaiter (.loop w 1)
  future : m.future u = some f
  pending : f.poll = .pending
  waker : Waker.effective f.waker = none

/-- The early poll found the Timer complete, and the loop is about to check once more. -/
structure GivesUp (w : Condition σ ρ) (m : Mem σ Tid) (p q : Pc σ ρ) : Prop where
  fast : p = .finish (.timed (.ok .timedOut))
  plain : q = .recheck w 1 .timedOut
  waiting : w.waiting 0 m.value = some true

/-- **The two paths are in step** but for the poll that only the fast path makes and the check that
only the plain path makes.

**Proof sketch.** By the places of the two paths. Up to the request of the future both execute the same
primitive. A future that is ready is polled by both and gives both the same answer. A pending one is
polled by the fast path alone (`PollsEarly`), and after a timeout only the plain path checks the
predicate again (`GivesUp`). -/
lemma Alike.inStep (h : Alike maxInstant w u m p q) (hslot : m.slot u = (typ p).holds) :
    InStep maxInstant w u m p q ∨ (∃ f, PollsEarly w u m p q f) ∨ GivesUp w m p q := by
  cases h with
  | same p =>
    refine .inl fun o => ?_
    cases hf : (code maxInstant p).fire m u o with
    | none => exact .inl ⟨rfl, rfl⟩
    | some x => exact .inr ⟨x.1, x.2, x.2, rfl, rfl, .same _⟩
  | opened timeout start ht hmax =>
    refine .inl fun o => .inr ⟨.checked m.value (w.waiting 0 m.value),
      opening w (fastPath (start + timeout) w) (w.waiting 0 m.value),
      opening w (plainPath (start + timeout) w) (w.waiting 0 m.value), ?_, ?_, ?_⟩
    · rw [code_checkDeadline, fire_check hslot]
    · rw [code_checkFor w ht hmax, fire_check hslot]
    · rcases ha : w.waiting 0 m.value with _ | _ | _
      · exact .same _
      · exact .same _
      · exact .armed _ ha
  | armed deadline hv =>
    refine .inl fun o => .inr ?_
    cases o with
    | some e => exact ⟨_, _, _, rfl, rfl, .same _⟩
    | none => exact ⟨_, _, _, rfl, rfl, .early (.at_ deadline) hv (Function.update_self _ _ _) rfl⟩
  | early f hv hf hwk =>
    cases hpoll : f.poll with
    | pending => exact .inr (.inl ⟨f, rfl, rfl, hf, hpoll, hwk⟩)
    | ready r =>
      refine .inl fun o => .inr ?_
      cases r with
      | error e =>
        refine ⟨.polled .noop (.ready (.error e)), .finish (.timed (.error e)),
          .finish (.timed (.error e)), ?_, ?_, .same _⟩
        · rw [code, fire_pollTimer hf, hpoll]
        · rw [code, fire_pollTimer hf, hpoll]
          rfl
      | ok _ =>
        refine ⟨.polled .noop (.ready (.ok ())), .finish (.timed (.ok .timedOut)),
          .recheck w 1 .timedOut, ?_, ?_, .gaveUp hv⟩
        · rw [code, fire_pollTimer hf, hpoll]
        · rw [code, fire_pollTimer hf, hpoll]
          rfl
  | gaveUp hv => exact .inr (.inr ⟨rfl, rfl, hv⟩)

/-- **The plain path follows the fast path.** -/
lemma Alike.fire (hw : w.Steady) {o : Option TimeError} {d : Did σ ρ} {p' : Pc σ ρ}
    (h : Alike maxInstant w u m p q) (hslot : m.slot u = (typ p).holds)
    (hmn : m.settled = n.settled) (hf : (code maxInstant p).fire m u o = some (d, p')) :
    (program maxInstant).threads.Catches u Did.isProbe n q d fun n' q' =>
      (m.effect u d).settled = n'.settled ∧ Alike maxInstant w u (m.effect u d) p' q' := by
  rcases h.inStep hslot with hstep | ⟨f, rfl, rfl, hfut, hpoll, hwk⟩ | ⟨rfl, rfl, hv⟩
  · rcases hstep o with ⟨hnone, -⟩ | ⟨d₁, p₁, q₁, hp, hq, ha⟩
    · rw [hnone] at hf
      cases hf
    · rw [hp] at hf
      cases hf
      rw [Cmd.fire_congr hmn] at hq
      exact .of_fire o hq ⟨Mem.effect_congr hmn u d, ha⟩
  · rw [code, fire_pollTimer hfut, hpoll] at hf
    cases hf
    exact .skip rfl ⟨(settled_effect_polled hfut hwk _).trans hmn, .same _⟩
  · -- The value has not changed since the first check, so the next one has the same answer.
    have hcheck : (code maxInstant (.recheck w 1 .timedOut)).fire n u o = some (_, _) :=
      fire_recheck hw hv hslot hmn o
    have hret : (code maxInstant (.finish (.timed (.ok .timedOut)))).fire n u o = some (d, p') := by
      rwa [Cmd.fire_congr hmn] at hf
    cases hf
    exact .probe o hcheck rfl (.of_fire o hret ⟨Mem.effect_congr hmn u _, .same _⟩)

/-- **The fast path follows the plain path.** -/
lemma Alike.fire_symm (hw : w.Steady) {o : Option TimeError} {d : Did σ ρ} {q' : Pc σ ρ}
    (h : Alike maxInstant w u m p q) (hslot : m.slot u = (typ p).holds)
    (hmn : m.settled = n.settled) (hf : (code maxInstant q).fire n u o = some (d, q')) :
    (program maxInstant).threads.Catches u Did.isProbe m p d fun m' p' =>
      m'.settled = (n.effect u d).settled ∧ Alike maxInstant w u m' p' q' := by
  rcases h.inStep hslot with hstep | ⟨f, rfl, rfl, hfut, hpoll, hwk⟩ | ⟨rfl, rfl, hv⟩
  · rw [← Cmd.fire_congr hmn] at hf
    rcases hstep o with ⟨-, hnone⟩ | ⟨d₁, p₁, q₁, hp, hq, ha⟩
    · rw [hnone] at hf
      cases hf
    · rw [hq] at hf
      cases hf
      exact .of_fire o hp ⟨Mem.effect_congr hmn u d, ha⟩
  · -- The plain path has polled once; the fast path makes the early poll and the same one.
    rw [← Cmd.fire_congr hmn, code, fire_pollTimer hfut, hpoll] at hf
    cases hf
    have hearly : (code maxInstant (.earlyPoll w)).fire m u o =
        some (.polled .noop .pending, .pollNoWaiter (.loop w 1)) := by
      rw [code, fire_pollTimer hfut, hpoll]
    have hsame := (settled_effect_polled (ρ := ρ) hfut hwk .pending).trans hmn
    have hnext : (code maxInstant (.pollNoWaiter (.loop w 1))).fire
        (m.effect u (.polled .noop .pending : Did σ ρ)) u o =
        some (.polled .noop .pending, .register true (.loop w 1)) := by
      rw [Cmd.fire_congr hsame, ← Cmd.fire_congr hmn, code, fire_pollTimer hfut, hpoll]
    exact .probe o hearly rfl (.of_fire o hnext ⟨Mem.effect_congr hsame u _, .same _⟩)
  · rw [fire_recheck hw hv hslot hmn] at hf
    cases hf
    exact .skip rfl ⟨hmn, .same _⟩

end Alike

/-- Where the entrances of the timed waits can be entered from: the fast path from a first check that
answered `true`, the sample of `wait_while_for` from its lock, and the others by a call only. -/
def EnteredFrom (p : Pc σ ρ) (d : Did σ ρ) : Pc σ ρ → Prop
  | .timerAt deadline (.loop w _) true =>
    p = .checkDeadline deadline w ∧ ∃ v, d = .checked v (some true) ∧ w.waiting 0 v = some true
  | .sample timeout w => p = .acquire (.sample timeout w)
  | .acquire (.sample _ _) | .deadlineAfter _ _ => False
  | _ => True

/-- A guard wait does not return to an entrance. -/
lemma enteredFrom_resumeTimed (p : Pc σ ρ) (d : Did σ ρ) (k : Caller σ ρ)
    (r : Except TimeError WaitTimeoutStatus) : EnteredFrom p d (resumeTimed k r) := by
  cases k <;> cases r <;> trivial

/-- **The entrances of the timed waits.** -/
lemma enteredFrom_of_reports {maxInstant : ℕ} {p p' : Pc σ ρ} {d : Did σ ρ}
    (h : (code maxInstant p).Reports d p') : EnteredFrom p d p' := by
  cases p with
  | acquire e =>
    cases h
    cases e with
    | sample timeout w => rfl
    | _ => trivial
  | checkDeadline deadline w =>
    cases h with
    | check _ _ v =>
      rcases ha : w.waiting 0 v with _ | _ | _
      · trivial
      · trivial
      · exact ⟨rfl, v, rfl, ha⟩
  | notify n out =>
    cases n <;> cases h
    case one.takeOne g => cases g <;> trivial
    case all.takeAll gs => cases gs <;> trivial
  | signal a rest out =>
    cases h
    cases rest <;> trivial
  | write f n =>
    cases h
    cases n <;> dsimp only <;> split <;> trivial
  | deadlineAfter | timerAfter | read | guardRead | guardWrite | check | act | earlyPoll =>
    cases h
    dsimp only
    split <;> trivial
  | checkFor timeout startedAt w =>
    cases h
    dsimp only
    split
    · trivial
    · split
      · trivial
      · split <;> trivial
    · trivial
  | recheck w n status =>
    cases h
    cases status <;> dsimp only <;> split <;> trivial
  | timerAt deadline k early =>
    cases h with
    | timerAt _ _ r => cases r <;> cases k <;> cases early <;> trivial
  | register timed k =>
    cases h with
    | register _ g => cases g <;> cases timed <;> cases k <;> trivial
  | pollNoWaiter k | finalPoll k a =>
    cases h with
    | pollTimer _ _ r =>
      cases r with
      | pending => first | trivial | exact enteredFrom_resumeTimed _ _ k _
      | ready r => exact enteredFrom_resumeTimed _ _ k _
  | pollRegistered k g =>
    cases h with
    | pollTimer _ _ r => cases r <;> trivial
  | dropEarly k g r =>
    cases h
    exact enteredFrom_resumeTimed _ _ k _
  | dropRegistration timed k g =>
    cases h
    cases timed <;> trivial
  | reacquire k | unwindRegistration k g =>
    cases h
    cases k <;> trivial
  | idle | held | heldUnwinding => cases h
  | _ =>
    cases h
    trivial

/-- Which choices of user code lead to the entrances of the timed waits. -/
def EnteredBy (p : Pc σ ρ) (x : Choice σ ρ) : Pc σ ρ → Prop
  | .acquire (.sample timeout w) => p = .idle ∧ x = .call (.waitWhileFor timeout w)
  | .deadlineAfter timeout w => p = .idle ∧ x = .call (.waitWhileWithTotalTimeout timeout w)
  | .timerAt _ (.loop _ _) _ | .sample _ _ => False
  | _ => True

/-- **The calls of the timed waits.** -/
lemma enteredBy_of_jump {p p' : Pc σ ρ} {x : Choice σ ρ} (h : jump p x = some p') :
    EnteredBy p x p' := by
  cases p <;> cases x <;> cases h
  · rename_i op
    cases op <;> trivial
  · rename_i op
    cases op <;> trivial
  · trivial
  · trivial

section Runs

variable [DecidableEq Tid] {maxInstant : ℕ} {s₀ : Setup σ} {w : Condition σ ρ} {u : Tid}
  {tr : List (Program.Label σ ρ (Choice σ ρ) Tid)} {c : Threads.Conf (Mem σ Tid) Tid (Pc σ ρ)}

/-- **The two paths follow each other**, whatever the other threads and the Timer do. -/
lemma alike_replaces (maxInstant : ℕ) (s₀ : Setup σ) (hw : w.Steady) (u : Tid) :
    (program maxInstant).threads.Replaces ((program maxInstant).start s₀)
      (fun m n => m.settled = n.settled) u Did.isProbe (Alike maxInstant w u) where
  congr := settled_congruence _
  other hr hs he h := h.kept fun hheld => (typed maxInstant Tid).kept_of_step hr hs he hheld
  jump h hj := ⟨_, (h.jump_eq _).symm.trans hj, .same _⟩
  jump_symm h hj := ⟨_, (h.jump_eq _).trans hj, .same _⟩
  fire hr h hmn hf := h.fire hw (((typed maxInstant Tid).owned hr).lock.slot u) hmn hf
  fire_symm hr h hmn hf := h.fire_symm hw (((typed maxInstant Tid).owned hr).lock.slot u) hmn hf

/-- Two configurations that differ in thread `u`: what the one can do, all reports of all threads but
the probes of `u` included, the other one can do, and it leaves the same memory but for wakers that
wake nobody. -/
def SameConduct (maxInstant : ℕ) (u : Tid) (c c' : Threads.Conf (Mem σ Tid) Tid (Pc σ ρ)) : Prop :=
  (program maxInstant).threads.Interchangeable (fun m n => m.settled = n.settled) u Did.isProbe c c'

/-- On the fast path the protected value is still one to wait on.

**Proof sketch.** Induction on the run. The thread comes to the fast path with the check of its
predicate, and as long as it is there it holds the lock, so nobody writes. -/
lemma waiting_of_fastPath (h : (program maxInstant).Run s₀ tr c) {deadline : ℕ}
    (hpc : c.pc u = fastPath deadline w) : w.waiting 0 c.mem.value = some true := by
  revert hpc
  refine (typed maxInstant Tid).rule (I := fun _ m pc => pc u = fastPath deadline w →
    w.waiting 0 m.value = some true) ?_ ?_ ?_ ?_ h
  · intro hpc
    cases hpc
  · intro tr m pc t d p hr hi hf hpc
    by_cases hut : u = t
    · subst hut
      rw [Function.update_self] at hpc
      subst hpc
      obtain ⟨-, v, rfl, hv⟩ := enteredFrom_of_reports hf.reports
      obtain ⟨-, rfl⟩ := hf.allows
      exact hv
    · rw [Function.update_of_ne hut] at hpc
      have hheld : (typ (pc u)).holds = true := by rw [hpc]; rfl
      rw [value_of_isWrite (hf.isWrite_of_ne hut hheld)]
      exact hi hpc
  · intro tr m pc t x p hr hi hj hpc
    by_cases hut : u = t
    · subst hut
      rw [Function.update_self] at hpc
      subst hpc
      exact (enteredBy_of_jump hj).elim
    · rw [Function.update_of_ne hut] at hpc
      exact hi hpc
  · intro tr m pc e m' b hr hi he hpc
    rw [(Mem.timer_frame he).value]
    exact hi hpc

/-- A call that samples the clock is one of three. -/
lemma sampled_by {past : List (Program.Label σ ρ (Choice σ ρ) Tid)} {m : Mem σ Tid}
    {pc : Tid → Pc σ ρ} {now : ℕ} {p : Pc σ ρ} {o : Call σ ρ}
    (hr : (program maxInstant).Run s₀ past ⟨m, pc⟩)
    (hf : (typed maxInstant Tid).Fires m pc u (.sampled now) p)
    (ho : lastCall Choice.called past u = some o) :
    (∃ timeout w, o = .op (.waitWhileFor timeout w) ∧ pc u = .sample timeout w) ∨
    (∃ timeout w, o = .op (.waitWhileWithTotalTimeout timeout w) ∧ pc u = .deadlineAfter timeout w) ∨
    (∃ timeout, o = .guard (.waitFor timeout)) := by
  have hreports : (code maxInstant (pc u)).Reports (.sampled now) p := hf.reports
  have hu : ¬ User (pc u) := by
    intro hu
    cases eq_unwound_of_user hreports hu
  obtain ⟨o', ho', hat⟩ := ((calls maxInstant).located (typed maxInstant Tid) hr u).resolve_left hu
  obtain rfl : o = o' := Option.some.inj (ho.symm.trans ho')
  replace hat : At o (pc u) := hat
  cases hpc : pc u with
  | sample timeout w =>
    rw [hpc] at hat
    exact .inl ⟨timeout, w, hat, rfl⟩
  | deadlineAfter timeout w =>
    rw [hpc] at hat
    exact .inr (.inl ⟨timeout, w, hat, rfl⟩)
  | timerAfter timeout =>
    rw [hpc] at hat
    exact .inr (.inr ⟨timeout, hat⟩)
  | notify n out =>
    rw [hpc] at hreports
    cases n <;> cases hreports
  | _ =>
    rw [hpc] at hreports
    cases hreports

/-- Behind its sample `wait_while_for` is about to check its predicate. -/
lemma sampled_waitWhileFor {past : List (Program.Label σ ρ (Choice σ ρ) Tid)} {timeout start : ℕ}
    (h : (program maxInstant).Run s₀ (.did u (.sampled start) :: past) c)
    (ho : lastCall Choice.called past u = some (.op (.waitWhileFor timeout w))) :
    ∃ m pc, (program maxInstant).Run s₀ past ⟨m, pc⟩ ∧ pc u = .sample timeout w ∧
      c = ⟨m, Function.update pc u (.checkFor timeout start w)⟩ := by
  obtain ⟨m, pc, p, hr, hf, rfl⟩ := (typed maxInstant Tid).fires_of_did h
  refine ⟨m, pc, hr, ?_⟩
  rcases sampled_by hr hf ho with ⟨timeout', w', heq, hpc⟩ | ⟨_, _, heq, -⟩ | ⟨_, heq⟩
  · cases heq
    have hreports : (code maxInstant (pc u)).Reports (.sampled start) p := hf.reports
    rw [hpc] at hreports
    cases hreports
    exact ⟨hpc, rfl⟩
  · cases heq
  · cases heq

/-- Behind its sample `wait_while_with_total_timeout` is about to lock. -/
lemma sampled_totalTimeout {past : List (Program.Label σ ρ (Choice σ ρ) Tid)} {timeout now : ℕ}
    (h : (program maxInstant).Run s₀ (.did u (.sampled now) :: past) c)
    (ho : lastCall Choice.called past u = some (.op (.waitWhileWithTotalTimeout timeout w)))
    (hmax : now + timeout ≤ maxInstant) :
    ∃ m pc, (program maxInstant).Run s₀ past ⟨m, pc⟩ ∧ pc u = .deadlineAfter timeout w ∧
      c = ⟨m, Function.update pc u (.acquire (.checkDeadline (now + timeout) w))⟩ := by
  obtain ⟨m, pc, p, hr, hf, rfl⟩ := (typed maxInstant Tid).fires_of_did h
  refine ⟨m, pc, hr, ?_⟩
  rcases sampled_by hr hf ho with ⟨_, _, heq, -⟩ | ⟨timeout', w', heq, hpc⟩ | ⟨_, heq⟩
  · cases heq
  · cases heq
    have hreports : (code maxInstant (pc u)).Reports (.sampled now) p := hf.reports
    have hadd : checkedAdd maxInstant now timeout = .ok (now + timeout) :=
      checkedAdd_eq_ok.mpr ⟨rfl, hmax⟩
    rw [hpc] at hreports
    cases hreports
    simp only [hadd]
    exact ⟨hpc, rfl⟩
  · cases heq

/-- The entrances of the timed waits, in a run. -/
lemma enteredFrom_of_fire {m : Mem σ Tid} {pc : Tid → Pc σ ρ} {o : Option TimeError} {d : Did σ ρ}
    {p : Pc σ ρ} (hr : (program maxInstant).Run s₀ tr ⟨m, pc⟩)
    (hf : (program maxInstant).threads.fire m u o (pc u) = some (d, p)) :
    EnteredFrom (pc u) d p :=
  enteredFrom_of_reports ((typed maxInstant Tid).fires ((typed maxInstant Tid).owned hr) hf).reports

/-- Before its first sample `wait_while_for` can be replaced by `wait_while_with_deadline`, with any
deadline.

**Proof sketch.** The two calls are at corresponding places from the call to the acquisition of the
lock, so the choice is replaced in the run (`rechoose`) and the steps in between are played as they
were. -/
lemma exists_run_of_sample {timeout : ℕ} (h : (program maxInstant).Run s₀ tr c)
    (hpc : c.pc u = .sample timeout w) (deadline : ℕ) :
    ∃ mid before, tr = mid ++ .chose u (.call (.waitWhileFor timeout w)) :: before ∧
      (∀ x, .chose u x ∉ mid) ∧
      (program maxInstant).Run s₀
        (mid ++ .chose u (.call (.waitWhileWithDeadline deadline w)) :: before)
        ⟨c.mem, Function.update c.pc u (.checkDeadline deadline w)⟩ := by
  refine Threads.Run.rechoose (R := fun p q =>
    p = .acquire (.sample timeout w) ∧ q = .acquire (.checkDeadline deadline w) ∨
    p = .sample timeout w ∧ q = .checkDeadline deadline w)
    (L := [.chose u (.call (.waitWhileWithDeadline deadline w))]) ?_ ?_ ?_ h (.inr ⟨hpc, rfl⟩)
  · rintro q (⟨hp, -⟩ | ⟨hp, -⟩) <;> cases hp
  · rintro m pc y p q hj (⟨rfl, rfl⟩ | ⟨rfl, rfl⟩)
    · obtain ⟨hidle, rfl⟩ := enteredBy_of_jump hj
      refine ⟨rfl, .single _ (Threads.step_choose _ ?_)⟩
      rw [hidle]
      rfl
    · exact (enteredBy_of_jump hj).elim
  · rintro tr m pc o d p q hr hf (⟨rfl, rfl⟩ | ⟨rfl, rfl⟩)
    · exact (enteredFrom_of_fire hr hf).elim
    · have hacquire : pc u = .acquire (.sample timeout w) := enteredFrom_of_fire hr hf
      refine ⟨_, .inl ⟨hacquire, rfl⟩, ?_⟩
      rw [hacquire] at hf
      have hlock : m.owner.isNone = true ∧ d = .locked := by
        simp only [Program.threads, program, code, Cmd.fire, Mem.recover_lockState] at hf
        split at hf
        · rename_i hfree
          cases hf
          exact ⟨hfree, rfl⟩
        · cases hf
      obtain ⟨hfree, rfl⟩ := hlock
      exact (Mem.recover_lockState m _).trans (if_pos hfree)

/-- Before it samples the clock `wait_while_with_total_timeout` has done nothing. -/
lemma exists_run_of_deadlineAfter {timeout : ℕ} (h : (program maxInstant).Run s₀ tr c)
    (hpc : c.pc u = .deadlineAfter timeout w) :
    ∃ mid before, tr = mid ++ .chose u (.call (.waitWhileWithTotalTimeout timeout w)) :: before ∧
      (∀ x, .chose u x ∉ mid) ∧
      (program maxInstant).Run s₀ (mid ++ before) ⟨c.mem, Function.update c.pc u .idle⟩ := by
  refine Threads.Run.rechoose (R := fun p q => p = .deadlineAfter timeout w ∧ q = .idle)
    (L := []) ?_ ?_ ?_ h ⟨hpc, rfl⟩
  · rintro q ⟨hp, -⟩
    cases hp
  · rintro m pc y p q hj ⟨rfl, rfl⟩
    obtain ⟨hidle, rfl⟩ := enteredBy_of_jump hj
    refine ⟨rfl, ?_⟩
    rw [← hidle, Function.update_eq_self]
    exact .nil
  · rintro tr m pc o d p q hr hf ⟨rfl, rfl⟩
    exact (enteredFrom_of_fire hr hf).elim

/-- **The deadline forms agree.** Let `w` be a condition with a pure predicate, in a run of any
threads.

* On the fast path of `wait_while_with_deadline` the thread can as well take the plain path.
* When a call of `wait_while_for` with a nonzero budget has sampled `start` under the state lock and
  the deadline `start + timeout` is representable, the rest of the call is a first check before the
  plain path. The same run with a call of `wait_while_with_deadline(start + timeout)` in its place
  leads to a configuration with the same conduct.
* When a call of `wait_while_with_total_timeout` has sampled `now` and `now + timeout` is representable,
  it has not locked yet, and the run in which the thread calls
  `wait_while_with_deadline(now + timeout)` at this moment instead leads to the same configuration.

**Proof sketch.** The two paths replace each other by `alike_replaces`, a weak simulation in both
directions, which settles the fast path. A call that has sampled the clock is in the only state that its
call and its sample can have led to; replacing the choice that began it (`Run.rechoose`) gives the run
with the deadline form, and the rest is the first case again, or the same program counter. -/
theorem deadline_forms_agree (maxInstant : ℕ) (s₀ : Setup σ) {w : Condition σ ρ} (hw : w.Steady)
    {tr : List (Program.Label σ ρ (Choice σ ρ) Tid)} {c : Threads.Conf (Mem σ Tid) Tid (Pc σ ρ)}
    (h : (program maxInstant).Run s₀ tr c) (u : Tid) :
    (∀ deadline, c.pc u = fastPath deadline w →
      SameConduct maxInstant u c ⟨c.mem, Function.update c.pc u (plainPath deadline w)⟩) ∧
    (∀ timeout start past, tr = .did u (.sampled start) :: past →
      lastCall Choice.called past u = some (.op (.waitWhileFor timeout w)) → timeout ≠ 0 →
      start + timeout ≤ maxInstant →
      c.mem.owner = some u ∧
      code maxInstant (c.pc u) = .check (w.waiting 0) (opening w (plainPath (start + timeout) w)) ∧
      ∃ mid before, past = mid ++ .chose u (.call (.waitWhileFor timeout w)) :: before ∧
        (∀ x, .chose u x ∉ mid) ∧
        (program maxInstant).Run s₀
          (mid ++ .chose u (.call (.waitWhileWithDeadline (start + timeout) w)) :: before)
          ⟨c.mem, Function.update c.pc u (.checkDeadline (start + timeout) w)⟩ ∧
        SameConduct maxInstant u
          ⟨c.mem, Function.update c.pc u (.checkDeadline (start + timeout) w)⟩ c) ∧
    (∀ timeout now past, tr = .did u (.sampled now) :: past →
      lastCall Choice.called past u = some (.op (.waitWhileWithTotalTimeout timeout w)) →
      now + timeout ≤ maxInstant →
      c.pc u = .acquire (.checkDeadline (now + timeout) w) ∧
      ∃ mid before, past = mid ++ .chose u (.call (.waitWhileWithTotalTimeout timeout w)) :: before ∧
        (∀ x, .chose u x ∉ mid) ∧
        (program maxInstant).Run s₀
          (.chose u (.call (.waitWhileWithDeadline (now + timeout) w)) :: (mid ++ before)) c) := by
  refine ⟨fun deadline hpc => ?_, ?_, ?_⟩
  · refine (alike_replaces maxInstant s₀ hw u).interchangeable ⟨⟨tr, h⟩, ⟨rfl, fun t ht => ?_⟩, ?_⟩
    · exact (Function.update_of_ne ht _ _).symm
    · show Alike maxInstant w u c.mem (c.pc u) (Function.update c.pc u (plainPath deadline w) u)
      rw [Function.update_self, hpc]
      exact .armed deadline (waiting_of_fastPath h hpc)
  · rintro timeout start past rfl ho ht hmax
    obtain ⟨m, pc, hr, hpc, rfl⟩ := sampled_waitWhileFor h ho
    obtain ⟨mid, before, hpast, hmid, hrun⟩ := exists_run_of_sample hr hpc (start + timeout)
    have hheld : (typ (Function.update pc u (.checkFor timeout start w) u)).holds = true := by
      rw [Function.update_self]
      rfl
    refine ⟨(((typed maxInstant Tid).owned h).lock.owner u).mpr hheld, ?_, mid, before, hpast, hmid, ?_⟩
    · show code maxInstant (Function.update pc u (.checkFor timeout start w) u) = _
      rw [Function.update_self]
      exact code_checkFor w ht hmax
    · simp only [Function.update_idem]
      refine ⟨hrun, (alike_replaces maxInstant s₀ hw u).interchangeable ⟨⟨_, hrun⟩, ?_, ?_⟩⟩
      · refine ⟨rfl, fun t htu => ?_⟩
        show Function.update pc u _ t = Function.update pc u _ t
        rw [Function.update_of_ne htu, Function.update_of_ne htu]
      · show Alike maxInstant w u m (Function.update pc u _ u) (Function.update pc u _ u)
        rw [Function.update_self, Function.update_self]
        exact .opened timeout start ht hmax
  · rintro timeout now past rfl ho hmax
    obtain ⟨m, pc, hr, hpc, rfl⟩ := sampled_totalTimeout h ho hmax
    obtain ⟨mid, before, hpast, hmid, hrun⟩ := exists_run_of_deadlineAfter hr hpc
    refine ⟨Function.update_self _ _ _, mid, before, hpast, hmid, ?_⟩
    have hjump : jump (Function.update pc u .idle u)
        (.call (.waitWhileWithDeadline (now + timeout) w)) =
        some (.acquire (.checkDeadline (now + timeout) w)) := by
      rw [Function.update_self]
      rfl
    have hstep : (program maxInstant).threads.step ⟨m, Function.update pc u .idle⟩
        (.choose u (.call (.waitWhileWithDeadline (now + timeout) w))) = some (_, _) :=
      Threads.step_choose _ hjump
    rw [Function.update_idem] at hstep
    exact .cons _ hrun hstep

end Runs

/-- In three runs a wait for a nonzero value is on the fast path, has sampled its start, and has sampled
the begin of its total budget. -/
theorem deadline_forms_agree_waiting :
    ∃ w : Condition ℕ Unit, w.Steady ∧
      (∃ tr, ∃ c : Threads.Conf (Mem ℕ Bool) Bool (Pc ℕ Unit),
        (program 100).Run ⟨0, 2, true⟩ tr c ∧ c.pc false = fastPath 5 w ∧
        SameConduct 100 false c ⟨c.mem, Function.update c.pc false (plainPath 5 w)⟩) ∧
      (∃ past, ∃ c : Threads.Conf (Mem ℕ Bool) Bool (Pc ℕ Unit),
        (program 100).Run ⟨0, 2, true⟩ (.did false (.sampled 2) :: past) c ∧
        SameConduct 100 false ⟨c.mem, Function.update c.pc false (.checkDeadline (2 + 5) w)⟩ c) ∧
      (∃ past later, ∃ c : Threads.Conf (Mem ℕ Bool) Bool (Pc ℕ Unit),
        (program 100).Run ⟨0, 2, true⟩ (.did false (.sampled 2) :: past) c ∧
        (program 100).Run ⟨0, 2, true⟩
          (.chose false (.call (.waitWhileWithDeadline (2 + 5) w)) :: later) c) := by
  let w : Condition ℕ Unit := ⟨fun _ v => some (v == 0), fun v => (v, some ())⟩
  let start : Threads.Conf (Mem ℕ Bool) Bool (Pc ℕ Unit) := (program 100).start ⟨0, 2, true⟩
  have hw : w.Steady := fun _ _ => rfl
  refine ⟨w, hw, ?_, ?_, ?_⟩
  · have hrun : (program 100).threads.Run start _ _ :=
      ((Lts.Run.nil.cons (.choose false (.call (.waitWhileWithDeadline 5 w))) rfl).cons
        (.run false none) rfl).cons (.run false none) rfl
    exact ⟨_, _, hrun, rfl, (deadline_forms_agree 100 _ hw hrun false).1 5 rfl⟩
  · have hrun : (program 100).threads.Run start _ _ :=
      ((Lts.Run.nil.cons (.choose false (.call (.waitWhileFor 5 w))) rfl).cons
        (.run false none) rfl).cons (.run false none) rfl
    obtain ⟨-, -, mid, before, -, -, -, hsame⟩ :=
      (deadline_forms_agree 100 _ hw hrun false).2.1 5 2 _ rfl rfl (by decide) (by decide)
    exact ⟨_, _, hrun, hsame⟩
  · have hrun : (program 100).threads.Run start _ _ :=
      (Lts.Run.nil.cons (.choose false (.call (.waitWhileWithTotalTimeout 5 w))) rfl).cons
        (.run false none) rfl
    obtain ⟨-, mid, before, -, -, hrun'⟩ :=
      (deadline_forms_agree 100 _ hw hrun false).2.2 5 2 _ rfl rfl (by decide)
    exact ⟨_, _, _, hrun, hrun'⟩

end Blocking

end QubitLock
