import QubitLock.Monitor.Ownership

set_option relaxedAutoImplicit false
set_option autoImplicit false

/-!
# The Tokio monitor

The operations of `TokioMonitor` (`tokio_monitor.rs`, `internal/tokio_condition_waiter_registration.rs`)
as one program over the primitives. A thread of this program owns one future at a time: it creates
the future of an operation, polls it any number of times, and may drop it whenever it is suspended
at an await. Within a poll the future runs from await to await; the steps of polls on other worker
threads interleave with it.

A future that was created and never polled has run nothing. A suspended future is at one of three
awaits: the first lock acquisition, the notification of its registration (with or without a
deadline), or the reacquisition of the lock.

## Main definitions

* `Tokio.Op` — the operations of the monitor.
* `Tokio.Pc`, `Tokio.code` — the program counters and the primitive at each.
* `Tokio.Suspended` — the future is at an await and can be dropped.
* `Tokio.program` — the program; `Tokio.typ` — the resources at each program counter.

## Main results

* `Tokio.typed` — the program is typed.
-/

namespace QubitLock

namespace Tokio

section Syntax

variable (σ ρ : Type)

/-- The operations of a Tokio monitor. -/
inductive Op where
  | withReadAsync (f : σ → Option ρ)
  | withWriteAsync (f : σ → σ × Option ρ)
  | withWriteNotifyOneAsync (f : σ → σ × Option ρ)
  | withWriteNotifyAllAsync (f : σ → σ × Option ρ)
  | notifyOne
  | notifyAll
  | waitWhileAsync (w : Condition σ ρ)
  | waitWhileForAsync (timeout : ℕ) (w : Condition σ ρ)
  | waitWhileWithDeadlineAsync (deadline : ℕ) (w : Condition σ ρ)

/-- The choices of the owner of a future: to start an operation, to poll the future, or to drop
it. -/
inductive Choice where
  | call (op : Op σ ρ)
  | poll
  | cancel

/-- What an operation does once it has the state lock. -/
inductive Entry where
  | read (f : σ → Option ρ)
  | write (f : σ → σ × Option ρ) (n : Option Notify)
  | check (w : Condition σ ρ)
  | sample (timeout : ℕ) (w : Condition σ ρ)
  | checkDeadline (deadline : ℕ) (w : Condition σ ρ)

/-- The program counters of the owner of a future. `n` counts the evaluations of a predicate. -/
inductive Pc where
  /-- No future. -/
  | idle
  /-- A future that was not polled yet. -/
  | created (e : Entry σ ρ)
  /-- Polling `self.state.lock()`. -/
  | lock (e : Entry σ ρ)
  /-- Suspended at `self.state.lock().await`. -/
  | lockPending (e : Entry σ ρ)
  /-- `with_read_async`: the closure. -/
  | read (f : σ → Option ρ)
  /-- `with_write_async`: the closure. -/
  | write (f : σ → σ × Option ρ) (n : Option Notify)
  /-- `with_write_async` drops its guard on return to a notifying variant. -/
  | writeDone (n : Notify) (out : Outcome ρ)
  /-- `notify_*`: taking waiters. -/
  | notify (n : Notify) (out : Outcome ρ)
  /-- `notify_*`: signalling the taken waiters. -/
  | signal (waiter : ℕ) (rest : List ℕ) (out : Outcome ρ)
  /-- `wait_while_async`: the loop condition. -/
  | check (w : Condition σ ρ) (n : ℕ)
  /-- `wait_while_for_async`: `self.timer.clock().now()`. -/
  | sample (timeout : ℕ) (w : Condition σ ρ)
  /-- `wait_while_for_async`: the first check. -/
  | checkFor (timeout startedAt : ℕ) (w : Condition σ ρ)
  /-- `wait_while_with_deadline_async`: the first check. -/
  | checkDeadline (deadline : ℕ) (w : Condition σ ρ)
  /-- `self.timer.at(deadline_at)`, with or without the poll of `wait_while_with_deadline_async`
  right after it. -/
  | timerAt (deadline : ℕ) (w : Condition σ ρ) (early : Bool)
  /-- `wait_while_with_deadline_async`: `deadline_reached` before the loop. -/
  | earlyPoll (w : Condition σ ρ)
  /-- `register_waiter`. -/
  | register (timed : Bool) (w : Condition σ ρ) (n : ℕ)
  /-- `drop(guard)`. -/
  | dropGuard (timed : Bool) (w : Condition σ ρ) (n : ℕ) (g : Registration)
  /-- `wait_until_signalled_or_deadline`: the poll of the deadline. -/
  | pollDeadline (w : Condition σ ρ) (n : ℕ) (g : Registration)
  /-- The poll of `notified()`. -/
  | pollNotified (timed : Bool) (w : Condition σ ρ) (n : ℕ) (g : Registration)
  /-- Suspended at the notification of the registration. -/
  | waitPending (timed : Bool) (w : Condition σ ρ) (n : ℕ) (g : Registration)
  /-- `drop(registration)`; an untimed wait has no status. -/
  | dropRegistration (w : Condition σ ρ) (n : ℕ) (g : Registration)
      (status : Option (Except TimeError WaitTimeoutStatus))
  /-- Polling the second `self.state.lock()`. -/
  | relock (w : Condition σ ρ) (n : ℕ) (status : Option (Except TimeError WaitTimeoutStatus))
  /-- Suspended at the second `self.state.lock().await`. -/
  | relockPending (w : Condition σ ρ) (n : ℕ)
      (status : Option (Except TimeError WaitTimeoutStatus))
  /-- `deadline_reached` after a notification. -/
  | deadlineReached (w : Condition σ ρ) (n : ℕ)
  /-- The check after a suspension of a timed wait. -/
  | recheck (w : Condition σ ρ) (n : ℕ) (reached : Bool)
  /-- The action of a predicate wait. -/
  | act (w : Condition σ ρ) (timed : Bool)
  /-- The result is decided and the guard is still held. -/
  | finish (out : Outcome ρ)
  /-- The result is decided and there is no guard. -/
  | done (out : Outcome ρ)
  /-- A dropped future drops its registration. -/
  | cancelRegistration (timed : Bool) (g : Registration)
  /-- A dropped future drops the rest of its locals. -/
  | cancelled (timed : Bool)
  /-- A panic unwinds an operation that owns its guard. -/
  | unwindGuard

end Syntax

variable {σ ρ : Type}

/-- Where an operation continues with the state lock. -/
def Entry.pc : Entry σ ρ → Pc σ ρ
  | .read f => .read f
  | .write f n => .write f n
  | .check w => .check w 0
  | .sample timeout w => .sample timeout w
  | .checkDeadline deadline w => .checkDeadline deadline w

/-- Where an operation begins. The asynchronous ones create a future; a notification runs at
once. -/
def Op.begin : Op σ ρ → Pc σ ρ
  | .withReadAsync f => .created (.read f)
  | .withWriteAsync f => .created (.write f none)
  | .withWriteNotifyOneAsync f => .created (.write f (some .one))
  | .withWriteNotifyAllAsync f => .created (.write f (some .all))
  | .notifyOne => .notify .one .unit
  | .notifyAll => .notify .all .unit
  | .waitWhileAsync w => .created (.check w)
  | .waitWhileForAsync timeout w => .created (.sample timeout w)
  | .waitWhileWithDeadlineAsync deadline w => .created (.checkDeadline deadline w)

/-- A future that is not being polled: it can be polled or dropped. -/
def Suspended : Pc σ ρ → Bool
  | .created _ | .lockPending _ | .waitPending _ _ _ _ | .relockPending _ _ _ => true
  | _ => false

/-- Where a poll of the await on a registration begins: a timed wait polls its deadline first. -/
def pollWait (timed : Bool) (w : Condition σ ρ) (n : ℕ) (g : Registration) : Pc σ ρ :=
  if timed then .pollDeadline w n g else .pollNotified false w n g

/-- The choices of the owner. -/
def jump : Pc σ ρ → Choice σ ρ → Option (Pc σ ρ)
  | .idle, .call op => some op.begin
  | .created e, .poll => some (.lock e)
  | .lockPending e, .poll => some (.lock e)
  | .waitPending timed w n g, .poll => some (pollWait timed w n g)
  | .relockPending w n status, .poll => some (.relock w n status)
  | .created _, .cancel => some (.cancelled false)
  | .lockPending _, .cancel => some (.cancelled false)
  | .waitPending timed _ _ g, .cancel => some (.cancelRegistration timed g)
  | .relockPending _ _ status, .cancel => some (.cancelled status.isSome)
  | _, _ => none

/-- Signals the taken waiters one after the other. -/
def signalAll : List ℕ → Outcome ρ → Pc σ ρ
  | [], out => .done out
  | a :: rest, out => .signal a rest out

/-- What a wait does with the reacquired lock: an untimed one checks again, a timed one looks at
the status it got before. -/
def relocked (w : Condition σ ρ) (n : ℕ) : Option (Except TimeError WaitTimeoutStatus) → Pc σ ρ
  | none => .check w n
  | some (.error e) => .finish (.timed (.error e))
  | some (.ok status) => if status.isTimedOut then .recheck w n true else .deadlineReached w n

/-- **The code**: the primitive at each program counter. -/
def code (maxInstant : ℕ) : Pc σ ρ → Cmd σ ρ (Pc σ ρ)
  | .idle | .created _ | .lockPending _ | .waitPending _ _ _ _ | .relockPending _ _ _ => .suspend
  | .lock e => .tryLock fun
    | true => e.pc
    | false => .lockPending e
  | .read f => .read f fun
    | some r => .finish (.value r)
    | none => .unwindGuard
  | .write f n => .write f fun
    | some r =>
      match n with
      | none => .finish (.value r)
      | some n => .writeDone n (.value r)
    | none => .unwindGuard
  | .writeDone n out => .releaseGuard fun _ => .notify n out
  | .notify .one out => .takeOne fun a => signalAll a.toList out
  | .notify .all out => .takeAll fun as => signalAll as out
  | .signal a rest out => .signal a (signalAll rest out)
  | .check w n => .check (w.waiting n) fun
    | some true => .register false w (n + 1)
    | some false => .act w false
    | none => .unwindGuard
  | .sample timeout w => .now fun startedAt => .checkFor timeout startedAt w
  | .checkFor timeout startedAt w => .check (w.waiting 0) fun
    | some false => .act w true
    | some true =>
      if timeout = 0 then .finish (.timed (.ok .timedOut))
      else
        match checkedAdd maxInstant startedAt timeout with
        | .ok deadline => .timerAt deadline w false
        | .error e => .finish (.timed (.error e))
    | none => .unwindGuard
  | .checkDeadline deadline w => .check (w.waiting 0) fun
    | some false => .act w true
    | some true => .timerAt deadline w true
    | none => .unwindGuard
  | .timerAt deadline w early => .timerAt deadline fun
    | .error e => .finish (.timed (.error e))
    | .ok _ => if early then .earlyPoll w else .register true w 1
  | .earlyPoll w => .pollTimer .task fun
    | .ready (.ok _) => .finish (.timed (.ok .timedOut))
    | .ready (.error e) => .finish (.timed (.error e))
    | .pending => .register true w 1
  | .register timed w n => .register fun
    | some g => .dropGuard timed w n g
    | none => .unwindGuard
  | .dropGuard timed w n g => .releaseGuard fun _ => pollWait timed w n g
  | .pollDeadline w n g => .pollTimer .task fun
    | .ready r => .dropRegistration w n g (some (r.map fun _ => .timedOut))
    | .pending => .pollNotified true w n g
  | .pollNotified timed w n g => .pollNotified g.waiter fun
    | true => .dropRegistration w n g (if timed then some (.ok .woken) else none)
    | false => .waitPending timed w n g
  | .dropRegistration w n g status => .unregister g.waiterId (.relock w n status)
  | .relock w n status => .tryLock fun
    | true => relocked w n status
    | false => .relockPending w n status
  | .deadlineReached w n => .pollTimer .task fun
    | .ready (.ok _) => .recheck w n true
    | .ready (.error e) => .finish (.timed (.error e))
    | .pending => .recheck w n false
  | .recheck w n reached => .check (w.waiting n) fun
    | some false => .act w true
    | some true =>
      if reached then .finish (.timed (.ok .timedOut)) else .register true w (n + 1)
    | none => .unwindGuard
  | .act w timed => .write w.f fun
    | some r => .finish (if timed then .timed (.ok (.ready r)) else .value r)
    | none => .unwindGuard
  | .finish out => .ret out .idle
  | .done out => .ret out .idle
  | .cancelRegistration timed g => .unregister g.waiterId (.cancelled timed)
  | .cancelled _ => .ret .cancelled .idle
  | .unwindGuard => .unwind .idle

/-- The program of a Tokio monitor whose clock has instants up to `maxInstant`. -/
def program (maxInstant : ℕ) : Program σ ρ (Pc σ ρ) (Choice σ ρ) :=
  ⟨code maxInstant, jump, .idle⟩

/-- The resources of the owner of a future at each program counter. The status of a wait tells
whether it has a deadline. -/
def typ : Pc σ ρ → Res
  | .idle | .created _ | .lock _ | .lockPending _ | .notify _ _ | .done _ => .idle
  | .signal a rest _ => { Res.idle with sig := a :: rest }
  | .read _ | .write _ _ | .writeDone _ _ | .check _ _ | .sample _ _ | .checkFor _ _ _ |
    .checkDeadline _ _ | .timerAt _ _ _ | .act _ _ | .finish _ | .unwindGuard => .guard
  | .earlyPoll _ | .deadlineReached _ _ | .recheck _ _ _ => { Res.guard with timer := true }
  | .register timed _ _ => { Res.guard with timer := timed }
  | .dropGuard timed _ _ g => ⟨true, timed, some g, some g.waiter, []⟩
  | .pollDeadline _ _ g => ⟨false, true, some g, some g.waiter, []⟩
  | .pollNotified timed _ _ g | .waitPending timed _ _ g =>
    ⟨false, timed, some g, some g.waiter, []⟩
  | .dropRegistration _ _ g status => ⟨false, status.isSome, some g, some g.waiter, []⟩
  | .relock _ _ status | .relockPending _ _ status => { Res.idle with timer := status.isSome }
  | .cancelRegistration timed g => ⟨false, timed, some g, some g.waiter, []⟩
  | .cancelled timed => { Res.idle with timer := timed }

/-- Every operation begins without resources. -/
@[simp] lemma typ_begin (op : Op σ ρ) : typ op.begin = .idle := by
  cases op <;> rfl

/-- Every operation continues with the guard. -/
@[simp] lemma typ_entry (e : Entry σ ρ) : typ e.pc = .guard := by
  cases e <;> rfl

/-- The signals of a notification are the waiters it took. -/
@[simp] lemma typ_signalAll (as : List ℕ) (out : Outcome ρ) :
    typ (signalAll as out : Pc σ ρ) = { Res.idle with sig := as } := by
  cases as <;> rfl

/-- A poll of the await on a registration begins with the registration. -/
@[simp] lemma typ_pollWait (timed : Bool) (w : Condition σ ρ) (n : ℕ) (g : Registration) :
    typ (pollWait timed w n g) = ⟨false, timed, some g, some g.waiter, []⟩ := by
  cases timed <;> rfl

/-- A wait continues with the guard, and a timed one with its deadline. -/
lemma typ_relocked (w : Condition σ ρ) (n : ℕ)
    (status : Option (Except TimeError WaitTimeoutStatus)) :
    (⟨true, status.isSome, none, none, []⟩ : Res).Forgets (typ (relocked w n status)) := by
  rcases status with - | (e | status)
  · exact .refl _
  · simp [relocked, typ, Res.guard, Res.idle, Res.forgets_iff]
  · cases status <;> exact .refl _

/-- **Every primitive of the Tokio program is well typed.** -/
lemma code_checks (maxInstant : ℕ) (p : Pc σ ρ) : (code maxInstant p).Checks typ (typ p) := by
  intro d k h
  cases p with
  | idle | created | lockPending | waitPending | relockPending => cases h
  | lock e =>
    cases h with
    | tryLock =>
      simp only [typ_entry]
      exact ⟨⟨rfl, rfl⟩, .refl _⟩
    | contended => exact ⟨⟨rfl, rfl⟩, .refl _⟩
  | read | act =>
    cases h
    refine ⟨⟨rfl, rfl⟩, ?_⟩
    dsimp only
    split <;> exact .refl _
  | write f n =>
    cases h
    refine ⟨⟨rfl, rfl⟩, ?_⟩
    cases n <;> dsimp only <;> split <;> exact .refl _
  | writeDone =>
    cases h
    exact ⟨rfl, .refl _⟩
  | notify n out =>
    cases n <;> cases h <;> simp only [Res.Step, typ_signalAll]
    case one.takeOne g =>
      refine ⟨⟨rfl, rfl, rfl⟩, ?_⟩
      cases g <;> exact .refl _
    case all.takeAll gs => exact ⟨⟨rfl, rfl, rfl⟩, .refl _⟩
  | signal a rest out =>
    cases h
    simp only [Res.Step, typ_signalAll]
    exact ⟨rfl, .refl _⟩
  | check | checkDeadline =>
    cases h
    refine ⟨⟨rfl, rfl⟩, ?_⟩
    dsimp only
    split <;> exact .refl _
  | checkFor timeout startedAt w =>
    cases h
    refine ⟨⟨rfl, rfl⟩, ?_⟩
    dsimp only
    split
    · exact .refl _
    · split
      · exact .refl _
      · split <;> exact .refl _
    · exact .refl _
  | sample =>
    cases h
    exact ⟨trivial, .refl _⟩
  | timerAt deadline w early =>
    cases h with
    | timerAt _ _ x =>
      refine ⟨trivial, ?_⟩
      cases x with
      | error e => exact .refl _
      | ok _ => cases early <;> exact .refl _
  | earlyPoll | deadlineReached =>
    cases h
    refine ⟨⟨rfl, by simp⟩, ?_⟩
    dsimp only
    split <;> simp [typ, Res.after, Res.forgets_iff, Res.guard, Res.idle]
  | register timed w n =>
    cases h with
    | register _ g =>
      refine ⟨⟨rfl, rfl⟩, ?_⟩
      cases g with
      | none => simp [typ, Res.after, Res.forgets_iff, Res.guard, Res.idle]
      | some g => exact .refl _
  | dropGuard timed w n g =>
    cases h
    simp only [typ_pollWait]
    exact ⟨rfl, .refl _⟩
  | pollDeadline w n g =>
    cases h with
    | pollTimer _ _ x =>
      refine ⟨⟨rfl, by simp⟩, ?_⟩
      cases x <;> exact .refl _
  | pollNotified timed w n g =>
    cases h with
    | pollNotified _ _ b =>
      refine ⟨⟨rfl, g, rfl, rfl⟩, ?_⟩
      cases b <;> cases timed <;> exact .refl _
  | dropRegistration w n g status =>
    cases h
    refine ⟨⟨g, rfl, rfl⟩, ?_⟩
    simp [typ, Res.after, Res.forgets_iff, Res.idle]
  | cancelRegistration timed g =>
    cases h
    refine ⟨⟨g, rfl, rfl⟩, ?_⟩
    simp [typ, Res.after, Res.forgets_iff, Res.idle]
  | relock w n status =>
    cases h with
    | tryLock => exact ⟨⟨rfl, rfl⟩, typ_relocked w n status⟩
    | contended => exact ⟨⟨rfl, rfl⟩, .refl _⟩
  | recheck w n reached =>
    cases h
    refine ⟨⟨rfl, rfl⟩, ?_⟩
    dsimp only
    split
    · simp [typ, Res.after, Res.forgets_iff, Res.guard, Res.idle]
    · cases reached <;> simp [typ, Res.after, Res.forgets_iff, Res.guard, Res.idle]
    · simp [typ, Res.after, Res.forgets_iff, Res.guard, Res.idle]
  | finish | done | cancelled =>
    cases h
    exact ⟨⟨rfl, rfl⟩, .refl _⟩
  | unwindGuard =>
    cases h
    exact ⟨⟨rfl, rfl⟩, .refl _⟩

/-- **The program of a Tokio monitor is typed.** -/
def typed (maxInstant : ℕ) (Tid : Type) [DecidableEq Tid] :
    (program maxInstant : Program σ ρ (Pc σ ρ) (Choice σ ρ)).Typed Tid :=
  .ofChecks typ rfl (code_checks maxInstant) (by
    intro p x p' h
    cases p <;> cases x <;> simp only [program, jump, reduceCtorEq] at h <;> cases h
    · exact typ_begin _
    all_goals first | exact typ_pollWait _ _ _ _ | rfl)

end Tokio

end QubitLock
