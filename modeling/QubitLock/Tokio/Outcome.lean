import QubitLock.Monitor.History
import QubitLock.Monitor.TimedWait
import QubitLock.Tokio.Calls

set_option relaxedAutoImplicit false
set_option autoImplicit false

/-!
# The outcome of the Tokio timed waits

`wait_while_for_async` and `wait_while_with_deadline_async` follow the protocol of
`Monitor/TimedWait.lean` poll by poll: the status of a suspension is kept while the lock is
reacquired, over any number of polls. The contract follows in every run, and a future that is
dropped at one of its awaits leaves nothing behind.

## Main definitions

* `Tokio.Op.limit` — how the deadline of an operation is given.
* `Tokio.phase` — the phase of a timed wait at each program counter.
* `Tokio.DecidedInPoll` — a wait was told to stop waiting in the current poll.

## Main results

* `Tokio.timed_waits_keep_contract_async` — the contract of the timed waits, and of their
  cancellation.
-/

namespace QubitLock.Tokio

variable {σ ρ : Type}

/-- How the deadline of a timed wait is given. -/
def Op.limit : Op σ ρ → Option Limit
  | .waitWhileForAsync timeout _ => some (.budget timeout)
  | .waitWhileWithDeadlineAsync deadline _ => some (.instant deadline)
  | _ => none

/-- The phase of a wait that takes the lock for the first time. -/
def Entry.phase : Entry σ ρ → Phase ρ
  | .sample _ _ => .acquiring none
  | .checkDeadline deadline _ => .acquiring (some deadline)
  | _ => .never

/-- The phase of a wait that has the status of its suspension. -/
def statusPhase : Option (Except TimeError WaitTimeoutStatus) → Phase ρ
  | none => .never
  | some (.error e) => .failing e
  | some (.ok status) => .looping status.isTimedOut

/-- The phase of a timed wait at each program counter. -/
def phase : Pc σ ρ → Phase ρ
  | .created e | .lock e | .lockPending e => e.phase
  | .sample _ _ => .locked
  | .checkFor timeout startedAt _ => .opened (startedAt + timeout)
  | .checkDeadline deadline _ => .opened deadline
  | .timerAt deadline _ _ => .blocked deadline
  | .earlyPoll _ => .early
  | .register true _ _ | .dropGuard true _ _ _ | .pollDeadline _ _ _ | .pollNotified true _ _ _ |
    .waitPending true _ _ _ | .deadlineReached _ _ => .looping false
  | .dropRegistration _ _ _ status | .relock _ _ status | .relockPending _ _ status =>
    statusPhase status
  | .recheck _ _ reached => .looping reached
  | .act _ true => .stopped
  | .finish out => returning out
  | .cancelRegistration _ _ | .cancelled _ => .dropped
  | .unwindGuard => .unwinding
  | .idle => .left
  | _ => .never

/-- If the operation is a timed wait, its reports lead to its phase. -/
def Follows (maxInstant : ℕ) (op : Op σ ρ) (ds : List (Did σ ρ)) (p : Pc σ ρ) : Prop :=
  ∀ l w, op.limit = some l → op.condition = some w → l.Spec maxInstant w.f ds (phase p)

/-- A wait with a deadline is timed. -/
lemma Op.timed_of_limit {op : Op σ ρ} {l : Limit} (hl : op.limit = some l) : op.timed = true := by
  cases op <;> first | rfl | cases hl

/-- A report that keeps the status of a suspension. -/
lemma follows_status {maxInstant : ℕ} {l : Limit} {f : σ → σ × Option ρ} {ds : List (Did σ ρ)}
    {status : Option (Except TimeError WaitTimeoutStatus)} {d : Did σ ρ}
    (h : l.Spec maxInstant f ds (statusPhase status))
    (hd : d = .contended ∨ ∃ i b, d = .unregistered i b) :
    l.Spec maxInstant f (d :: ds) (statusPhase status) := by
  rcases status with _ | e | status
  · cases h
  · obtain ⟨deadline, v₀, hf⟩ := h
    refine ⟨deadline, v₀, ?_⟩
    rcases hd with rfl | ⟨i, b, rfl⟩
    · exact hf.contended
    · exact hf.unregistered
  · refine Limit.Spec.step h ?_
    rcases hd with rfl | ⟨i, b, rfl⟩ <;> trivial

/-- With the lock a wait goes on as its status tells. -/
lemma follows_relocked {maxInstant : ℕ} {l : Limit} {f : σ → σ × Option ρ} {ds : List (Did σ ρ)}
    {w : Condition σ ρ} {n : ℕ} {status : Option (Except TimeError WaitTimeoutStatus)}
    (h : l.Spec maxInstant f ds (statusPhase status)) :
    l.Spec maxInstant f (.locked :: ds) (phase (relocked w n status)) := by
  rcases status with _ | e | status
  · cases h
  · obtain ⟨deadline, v₀, hf⟩ := h
    exact Failed.failing hf.locked
  · cases status <;> exact Limit.Spec.step h trivial

/-- **The primitives of a timed wait lead from phase to phase.**

**Proof sketch.** One case for each program counter. Each of them belongs to one phase of a timed wait,
and a primitive either stays in its phase or enters the next one, with the rule for that transition. -/
lemma follows_reports {maxInstant : ℕ} {p p' : Pc σ ρ} {d : Did σ ρ} {op : Op σ ρ}
    {ds : List (Did σ ρ)} (h : (code maxInstant p).Reports d p') (hat : At op p)
    (hf : Follows maxInstant op ds p) : Follows maxInstant op (d :: ds) p' := by
  intro l w₀ hl hw₀
  have hspec := hf l w₀ hl hw₀
  have htimed := Op.timed_of_limit hl
  cases p with
  | lock e =>
    cases h with
    | tryLock =>
      cases e with
      | sample timeout w => exact Acquiring.acquired hspec
      | checkDeadline deadline w => exact Acquiring.opened hspec
      | _ => cases hspec
    | contended =>
      cases e with
      | sample timeout w => exact Acquiring.contended hspec
      | checkDeadline deadline w => exact Acquiring.contended hspec
      | _ => cases hspec
  | sample timeout w =>
    obtain rfl : op = _ := hat
    cases hl
    cases h
    exact Opened.budget hspec
  | checkFor timeout startedAt w =>
    obtain rfl : op = _ := hat
    cases hl
    cases h with
    | check _ _ v =>
      rcases w.waiting 0 v with _ | _ | _
      · exact Limit.Spec.unwinding hspec nofun nofun nofun
      · exact ⟨v, .first hspec⟩
      · have hb : Blocked maxInstant (.budget timeout) (startedAt + timeout) v _ := .checked hspec
        dsimp only
        split
        · rename_i hzero
          subst hzero
          exact GaveUp.empty hb
        · rename_i hzero
          split
          · rename_i deadline hd
            obtain ⟨rfl, hmax⟩ := checkedAdd_eq_ok.mp hd
            exact ⟨⟨hzero, hmax⟩, v, hb⟩
          · rename_i e he
            obtain ⟨rfl, hmax⟩ := checkedAdd_eq_error.mp he
            exact Failed.overflow hb hzero hmax
  | checkDeadline deadline w =>
    obtain rfl : op = _ := hat
    cases hl
    cases h with
    | check _ _ v =>
      rcases w.waiting 0 v with _ | _ | _
      · exact Limit.Spec.unwinding hspec nofun nofun nofun
      · exact ⟨v, .first hspec⟩
      · exact ⟨trivial, v, .checked hspec⟩
  | timerAt deadline w early =>
    cases h with
    | timerAt _ _ r =>
      cases r with
      | error e =>
        obtain ⟨ha, v₀, hb⟩ := hspec
        exact Failed.refused hb ha
      | ok _ =>
        cases early with
        | true => exact Limit.Spec.early hspec
        | false => exact (Limit.Spec.early hspec).looping
  | earlyPoll w =>
    cases h with
    | pollTimer _ _ r =>
      rcases r with _ | e | _
      · exact (Limit.Spec.looping hspec).step trivial
      · exact (Limit.Spec.looping hspec).failing.failed
      · exact Limit.Spec.gaveUp_early hspec
  | register timed w n =>
    obtain rfl : true = timed := htimed.symm.trans hat.2
    cases h with
    | register _ g =>
      cases g with
      | none => exact Limit.Spec.unwinding hspec nofun nofun nofun
      | some g => exact Limit.Spec.step hspec trivial
  | dropGuard timed w n g =>
    obtain rfl : true = timed := htimed.symm.trans hat.2
    cases h
    exact Limit.Spec.step hspec trivial
  | pollDeadline w n g =>
    cases h with
    | pollTimer _ _ r =>
      rcases r with _ | _ | _
      · exact Limit.Spec.step hspec trivial
      · exact Limit.Spec.failing hspec
      · exact Limit.Spec.reached hspec
  | pollNotified timed w n g =>
    obtain rfl : true = timed := htimed.symm.trans hat.2
    cases h with
    | pollNotified _ _ b => cases b <;> exact Limit.Spec.step hspec trivial
  | dropRegistration w n g status =>
    cases h
    exact follows_status hspec (.inr ⟨_, _, rfl⟩)
  | relock w n status =>
    cases h with
    | tryLock => exact follows_relocked hspec
    | contended => exact follows_status hspec (.inl rfl)
  | deadlineReached w n =>
    cases h with
    | pollTimer _ _ r =>
      rcases r with _ | _ | _
      · exact Limit.Spec.step hspec trivial
      · exact (Limit.Spec.failing hspec).failed
      · exact Limit.Spec.reached hspec
  | recheck w n reached =>
    cases h with
    | check _ _ v =>
      rcases w.waiting n v with _ | _ | _
      · exact Limit.Spec.unwinding hspec nofun nofun nofun
      · exact Limit.Spec.stopped hspec v
      · cases reached with
        | false => exact Limit.Spec.step hspec trivial
        | true => exact Limit.Spec.gaveUp hspec v
  | act w timed =>
    obtain rfl : true = timed := htimed.symm.trans hat.2
    obtain rfl : w₀ = w := Option.some.inj (hw₀.symm.trans hat.1)
    obtain ⟨v', hs⟩ := hspec
    cases h with
    | write _ _ v =>
      cases hr : (w₀.f v).2 with
      | none => exact hs.frugal.cons nofun nofun
      | some r => exact ⟨v, v', ds, rfl, hs⟩
  | cancelRegistration timed g =>
    cases h
    exact ⟨hspec.1, hspec.2.cons (by simp) (by simp)⟩
  | finish | cancelled | unwindGuard =>
    cases h
    trivial
  | idle | created | lockPending | waitPending | relockPending => cases h
  | _ => cases hspec

/-- The choices of the owner of a future keep its phase, or drop it. -/
lemma follows_jump {p p' : Pc σ ρ} {x : Choice σ ρ} {maxInstant : ℕ} {op : Op σ ρ}
    {ds : List (Did σ ρ)} (h : jump p x = some p') (hx : x.called = none)
    (hat : At op p) (hf : Follows maxInstant op ds p) : Follows maxInstant op ds p' := by
  intro l w₀ hl hw₀
  have hspec := hf l w₀ hl hw₀
  have htimed := Op.timed_of_limit hl
  have hentry : ∀ e : Entry σ ρ, l.Spec maxInstant w₀.f ds e.phase →
      l.Spec maxInstant w₀.f ds .dropped := by
    intro e he
    cases e with
    | sample | checkDeadline => exact Limit.Spec.dropped he (.inl ⟨_, rfl⟩)
    | _ => cases he
  cases p <;> cases x <;> cases h <;> cases hx
  case created.poll | lockPending.poll | relockPending.poll => exact hspec
  case created.cancel e | lockPending.cancel e => exact hentry e hspec
  case waitPending.poll timed w n g =>
    obtain rfl : true = timed := htimed.symm.trans hat.2
    exact hspec
  case waitPending.cancel timed w n g =>
    obtain rfl : true = timed := htimed.symm.trans hat.2
    exact Limit.Spec.dropped hspec (.inr (.inl ⟨_, rfl⟩))
  case relockPending.cancel w n status =>
    rcases status with _ | e | status
    · cases hspec
    · exact Limit.Spec.dropped hspec (.inr (.inr ⟨e, rfl⟩))
    · exact Limit.Spec.dropped hspec (.inr (.inl ⟨_, rfl⟩))

/-- A wait in progress is not over. -/
lemma phase_ne_left {p : Pc σ ρ} (hu : p ≠ .idle) : phase p ≠ .left := by
  cases p with
  | idle => exact absurd rfl hu
  | finish out => exact returning_ne_left out
  | created e | lock e | lockPending e => cases e <;> nofun
  | dropRegistration _ _ _ status | relock _ _ status | relockPending _ _ status =>
    rcases status with _ | _ | _ <;> nofun
  | register timed | dropGuard timed | pollNotified timed | waitPending timed =>
    cases timed <;> nofun
  | act _ timed => cases timed <;> nofun
  | _ => nofun

variable {Tid : Type} [DecidableEq Tid] {s₀ : Setup σ}
  {tr : List (Program.Label σ ρ (Choice σ ρ) Tid)} {c : Threads.Conf (Mem σ Tid) Tid (Pc σ ρ)}

/-- Every timed wait follows the protocol. -/
lemma follows_of_run (maxInstant : ℕ) (h : (program maxInstant).Run s₀ tr c) (t : Tid) :
    c.pc t = .idle ∨ ∃ op, lastCall Choice.called tr t = some op ∧ At op (c.pc t) ∧
      Follows maxInstant op (since Choice.called tr t) (c.pc t) := by
  refine (calls maxInstant).conduct (typed maxInstant Tid) (V := Follows maxInstant) ?_
    follows_jump follows_reports h t
  intro p x p' op hj hx l w hl hw
  cases p <;> cases x <;> cases hj <;> cases hx
  rename_i op
  cases op <;> cases hl
  · exact Acquiring.budget (by simp)
  · exact Acquiring.instant (by simp)

/-- The latest step of a task was a check that answered `false` on `v`. Since then the task has made
no step and its future was not polled anew, and nobody has committed anything. -/
def DecidedInPoll (past : List (Program.Label σ ρ (Choice σ ρ) Tid)) (t : Tid) (v : σ) : Prop :=
  ∃ later earlier, past = later ++ .did t (.checked v (some false)) :: earlier ∧
    commits later = [] ∧ (∀ d, .did t d ∉ later) ∧ ∀ x, .chose t x ∉ later

/-- A timed wait commits nothing but its action, in the poll in which it was told to stop
waiting.

**Proof sketch.** A timed wait writes only at the place of its action, which follows the check. Since
then the task has held the lock, so nobody has committed, and a task with the lock is not suspended, so
it is still the same poll. -/
lemma action_of_run (maxInstant : ℕ) (h : (program maxInstant).Run s₀ tr c) {t : Tid}
    {f : σ → σ × Option ρ} {v : σ} {r : Option ρ} {p : Pc σ ρ} {op : Op σ ρ} {l : Limit}
    {w : Condition σ ρ} (hf : (typed maxInstant Tid).Fires c.mem c.pc t (.wrote f v r) p)
    (ho : lastCall Choice.called tr t = some op) (hl : op.limit = some l)
    (hw : op.condition = some w) : f = w.f ∧ DecidedInPoll tr t v := by
  have hreports : (code maxInstant (c.pc t)).Reports (.wrote f v r) p := hf.reports
  have hidle : c.pc t ≠ .idle := by
    intro hp
    rw [hp] at hreports
    cases hreports
  obtain ⟨op', ho', hat, hfollows⟩ := (follows_of_run maxInstant h t).resolve_left hidle
  obtain rfl : op = op' := Option.some.inj (ho.symm.trans ho')
  have hspec := hfollows l w hl hw
  cases hp : c.pc t with
  | write f' n =>
    rw [hp] at hspec
    cases hspec
  | act w' timed =>
    have hheld : (typ (c.pc t)).holds = true := by rw [hp]; rfl
    rw [hp] at hat hspec hreports
    cases hreports
    obtain rfl : w = w' := Option.some.inj (hw.symm.trans hat.1)
    obtain rfl : true = timed := (Op.timed_of_limit hl).symm.trans hat.2
    obtain ⟨v', hstop⟩ := hspec
    obtain ⟨ds, hds⟩ := hstop.head
    have hvalue : c.mem.value = v' :=
      (typed maxInstant Tid).value_eq_seen h hheld (by rw [hds]; rfl)
    obtain rfl : v = v' := hf.allows.2.1.trans hvalue
    obtain ⟨later, earlier, htr, hcommits, hown, hchose⟩ :=
      (typed maxInstant Tid).undisturbed h hheld hds
    refine ⟨rfl, later, earlier, htr, hcommits, hown, fun x hmem => ?_⟩
    -- a task that holds the lock is not suspended
    obtain ⟨q, q', hq, hj⟩ := hchose x hmem
    cases q <;> cases x <;> cases hj <;> cases hq
  | notify n out =>
    rw [hp] at hreports
    cases n <;> cases hreports
  | _ =>
    rw [hp] at hreports
    cases hreports

/-- **The contract of the Tokio timed waits.** Let the Timer complete no future with success before
its deadline, and let `op` be a timed wait with a pure predicate `p`. While its future is in
progress, it has sampled the clock at most once and requested at most one Timer future. It commits
nothing but its action, on a value on which the predicate answered `false` in the same poll. When it
returns, it has no registration left in the registry; either it holds the state lock and has kept
the contract, or it was dropped at an await, does not hold the lock and has committed nothing.

**Proof sketch.** As for the blocking monitor: the reports of a wait are in the phase of its program
counter (`follows_reports`), and with the lock the phase of an outcome is the contract. A wait that was
dropped returns from the place for that, where it has no lock, no registration and no commit. -/
theorem timed_waits_keep_contract_async (maxInstant : ℕ) (s₀ : Setup σ)
    {tr : List (Program.Label σ ρ (Choice σ ρ) Tid)} {c : Threads.Conf (Mem σ Tid) Tid (Pc σ ρ)}
    (h : (program maxInstant).Run s₀ tr c) (hh : Honest tr) {t : Tid} {op : Op σ ρ} {l : Limit}
    {w : Condition σ ρ} {p : σ → Bool} (hl : op.limit = some l) (hw : op.condition = some w)
    (hp : w.Pure p) :
    (lastCall Choice.called tr t = some op → c.pc t ≠ .idle →
      l.Frugal maxInstant (since Choice.called tr t)) ∧
    (∀ f v r past, .did t (.wrote f v r) :: past <:+ tr →
      lastCall Choice.called past t = some op → f = w.f ∧ DecidedInPoll past t v) ∧
    ∀ out v now past, .did t (.returned out v now) :: past <:+ tr →
      lastCall Choice.called past t = some op →
      ∃ m pc, (program maxInstant).Run s₀ past ⟨m, pc⟩ ∧ m.value = v ∧ m.clock = now ∧
        (∀ g, .did t (.registered (some g)) ∈ past → g ∉ m.registrations) ∧
        ((out = .cancelled ∧ m.owner ≠ some t ∧ writes (since Choice.called past t) = []) ∨
          (m.owner = some t ∧ ∃ deadline v₀, Contract maxInstant l w.f p deadline v₀
            (since Choice.called past t) out v now)) := by
  refine ⟨?_, ?_, ?_⟩
  · intro ho hidle
    obtain ⟨op', ho', hat, hf⟩ := (follows_of_run maxInstant h t).resolve_left hidle
    obtain rfl : op = op' := Option.some.inj (ho.symm.trans ho')
    exact (hf l w hl hw).frugal (phase_ne_left hidle)
  · intro f v r past hs ho
    obtain ⟨m, pc, p', hr, hfire⟩ := (typed maxInstant Tid).fires_of_suffix h hs
    exact action_of_run maxInstant hr hfire ho hl hw
  · intro out v now past hs ho
    obtain ⟨m, pc, p', hr, hfire⟩ := (typed maxInstant Tid).fires_of_suffix h hs
    have hreports : (code maxInstant (pc t)).Reports (.returned out v now) p' := hfire.reports
    obtain ⟨rfl, rfl⟩ : v = m.value ∧ now = m.clock := hfire.allows
    have hidle : pc t ≠ .idle := by
      intro hpc
      rw [hpc] at hreports
      cases hreports
    obtain ⟨op₁, ho₁, -, hanswers⟩ := ((calls maxInstant).answers (typed maxInstant Tid)
      condition_of_checked hr t).resolve_left hidle
    obtain rfl : op = op₁ := Option.some.inj (ho.symm.trans ho₁)
    obtain ⟨op₂, ho₂, -, hfollows⟩ := (follows_of_run maxInstant hr t).resolve_left hidle
    obtain rfl : op = op₂ := Option.some.inj (ho.symm.trans ho₂)
    have hspec : l.Spec maxInstant w.f _ (phase (pc t)) := hfollows l w hl hw
    have howner := ((typed maxInstant Tid).owned hr).lock.owner t
    have hgone : ∀ g, .did t (.registered (some g)) ∈ past → g ∉ m.registrations := fun g hg =>
      ((typed maxInstant Tid).history hr).not_mem_of_registered hfire.owned hfire.step.1.1 hg
    refine ⟨m, pc, hr, rfl, rfl, hgone, ?_⟩
    cases hpc : pc t with
    | finish out' =>
      have hheld : (typ (pc t)).holds = true := by rw [hpc]; rfl
      rw [hpc] at hspec hreports
      cases hreports
      have hpast := hh.of_suffix ((List.suffix_cons _ _).trans hs)
      exact .inr ⟨howner.mpr hheld,
        (typed maxInstant Tid).contract hr hpast hheld hspec (hanswers w p hw hp)⟩
    | cancelled timed =>
      have hfree : (typ (pc t)).holds ≠ true := by rw [hpc]; nofun
      rw [hpc] at hspec hreports
      cases hreports
      exact .inl ⟨rfl, fun ht => hfree (howner.mp ht), hspec.1⟩
    | done out' =>
      rw [hpc] at hspec
      cases hspec
    | notify n out' =>
      rw [hpc] at hreports
      cases n <;> cases hreports
    | _ =>
      rw [hpc] at hreports
      cases hreports

/-- A wait with a budget is suspended, an update makes its predicate false, and the Timer future
completes with an error before the wait is polled again. -/
def failedTimer : List (Threads.Event Bool (Option TimeError) (Choice ℕ Unit)
    (TimerEvent Bool)) :=
  [.choose false (.call (.waitWhileForAsync 5
      ⟨fun _ v => some (v == 0), fun v => (v + 10, some ())⟩)),
    .choose false .poll, .run false none, .run false none, .run false none, .run false none,
    .run false none, .run false none, .run false none, .run false none,
    .choose true (.call (.withWriteAsync fun v => (v + 1, some ()))), .choose true .poll,
    .run true none, .run true none, .run true none,
    .ambient (.complete false (.error .timerUnavailable)),
    .choose false .poll, .run false none, .run false none, .run false none, .run false none]

/-- In the run of `failedTimer` the wait returns the error although its predicate is false, and has
committed nothing. -/
theorem timed_waits_keep_contract_async_failed :
    ∃ tr past, ∃ c : Threads.Conf (Mem ℕ Bool) Bool (Pc ℕ Unit), ∃ w : Condition ℕ Unit,
      (program 100).Run ⟨0, 0, false⟩ tr c ∧ Honest tr ∧ w.Pure (· == 0) ∧
      tr = .did false (.returned (.timed (.error .timerUnavailable)) 1 0) :: past ∧
      ∃ deadline v₀, Contract 100 (.budget 5) w.f (· == 0) deadline v₀
        (since Choice.called past false) (.timed (.error .timerUnavailable)) 1 0 := by
  obtain ⟨tr, c, hr, hp, hes⟩ := (program 100).threads.exists_run_of_play
    ((program 100).start ⟨0, 0, false⟩) failedTimer
    (p := fun s => Honest s.2 ∧
      lastReturn s.2 = some (false, .timed (.error .timerUnavailable), 1, 0) ∧
      (lastCall Choice.called s.2.tail false).isSome) (by decide)
  simp only [decide_eq_true_eq] at hp
  obtain ⟨hh, hreturn, hlast⟩ := hp
  obtain ⟨past, rfl⟩ := lastReturn_eq_some hreturn
  obtain ⟨op, ho⟩ := Option.isSome_iff_exists.mp hlast
  have := hes _ _ (List.mem_cons_of_mem _ (call_mem ho))
  simp only [failedTimer, List.mem_cons, Threads.Event.choose.injEq, Choice.call.injEq,
    reduceCtorEq, and_false, false_and, or_false, List.not_mem_nil, true_and] at this
  obtain rfl := this
  have hpure : Condition.Pure (ρ := Unit) ⟨fun _ v => some (v == 0), fun v => (v + 10, some ())⟩
    (· == 0) := fun _ _ => rfl
  refine ⟨_, past, c, _, hr, hh, hpure, rfl, ?_⟩
  obtain ⟨-, -, hreturned⟩ := timed_waits_keep_contract_async 100 _ hr hh (t := false)
    (show (Op.waitWhileForAsync 5 _).limit = some (.budget 5) from rfl) rfl hpure
  obtain ⟨m, pc, -, -, -, -, hcontract⟩ := hreturned _ _ _ past (List.suffix_refl _) ho
  rcases hcontract with ⟨hout, -⟩ | ⟨-, hc⟩
  · cases hout
  · exact hc

end QubitLock.Tokio
