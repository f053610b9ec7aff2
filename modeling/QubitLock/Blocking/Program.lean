import QubitLock.Monitor.Ownership

set_option relaxedAutoImplicit false
set_option autoImplicit false

/-!
# The blocking monitors

The operations of `StdMonitor` and `ParkingLotMonitor` (`std_monitor.rs`, `std_monitor_guard.rs`
and their parking-lot twins) as one program over the primitives. The two differ only in whether
the state mutex records poisoning, which is a property of the memory.

Every program counter is a place between two primitives of the source. The predicate waits
(`internal/blocking_condition_wait.rs`) call the guard waits (`internal/blocking_monitor_guard_wait.rs`),
and so does user code that owns a guard; a guard wait remembers its `Caller`.

Closures are arbitrary. A predicate is an `FnMut`: its answer may depend on the number of earlier
evaluations in the same call. An answer `none` is a panic, and a mutating closure that panics
keeps what it wrote.

## Main definitions

* `Blocking.Op`, `Blocking.GuardOp` — the operations of the monitor and of its guards.
* `Blocking.Pc`, `Blocking.code` — the program counters and the primitive at each.
* `Blocking.program` — the program; `Blocking.typ` — the resources at each program counter.

## Main results

* `Blocking.typed` — the program is typed.
-/

namespace QubitLock

namespace Blocking

section Syntax

variable (σ ρ : Type)

/-- The operations of a blocking monitor. -/
inductive Op where
  | withRead (f : σ → Option ρ)
  | withWrite (f : σ → σ × Option ρ)
  | withWriteNotifyOne (f : σ → σ × Option ρ)
  | withWriteNotifyAll (f : σ → σ × Option ρ)
  | notifyOne
  | notifyAll
  | waitWhile (w : Condition σ ρ)
  | waitWhileFor (timeout : ℕ) (w : Condition σ ρ)
  | waitWhileWithDeadline (deadline : ℕ) (w : Condition σ ρ)
  | waitWhileWithTotalTimeout (timeout : ℕ) (w : Condition σ ρ)
  | lock
  | isPoisoned
  | clearPoison

/-- The operations of a monitor guard. -/
inductive GuardOp where
  | deref (f : σ → Option ρ)
  | derefMut (f : σ → σ × Option ρ)
  | wait
  | waitFor (timeout : ℕ)
  | waitUntil (deadline : ℕ)
  | drop
  | notifyOne
  | notifyAll

/-- The choices of user code: what to call next, and what to do with a panic that reaches user
code which owns a guard. -/
inductive Choice where
  | call (op : Op σ ρ)
  | guard (op : GuardOp σ ρ)
  | catchPanic
  | propagate

/-- The caller of a guard wait: the loop of a predicate wait that has evaluated its predicate `n`
times, or user code. -/
inductive Caller where
  | loop (w : Condition σ ρ) (n : ℕ)
  | guard

/-- What an operation does once it has the state lock. -/
inductive Entry where
  | read (f : σ → Option ρ)
  | write (f : σ → σ × Option ρ) (n : Option Notify)
  | check (w : Condition σ ρ)
  | sample (timeout : ℕ) (w : Condition σ ρ)
  | checkDeadline (deadline : ℕ) (w : Condition σ ρ)
  | held

/-- The program counters of a thread that uses a blocking monitor. -/
inductive Pc where
  /-- User code without a guard. -/
  | idle
  /-- User code that owns a guard. -/
  | held
  /-- A panic in user code that owns a guard. -/
  | heldUnwinding
  /-- `lock()`. -/
  | acquire (e : Entry σ ρ)
  /-- `wait_while_with_total_timeout`: `clock().deadline_after(timeout)`. -/
  | deadlineAfter (timeout : ℕ) (w : Condition σ ρ)
  /-- `with_read`: the closure. -/
  | read (f : σ → Option ρ)
  /-- `with_write` and its notifying variants: the closure. -/
  | write (f : σ → σ × Option ρ) (n : Option Notify)
  /-- Reading through a guard. -/
  | guardRead (f : σ → Option ρ)
  /-- Writing through a guard. -/
  | guardWrite (f : σ → σ × Option ρ)
  | isPoisoned
  | clearPoison
  /-- `StdMonitorGuard::notify_*`: `release_guard`. -/
  | notifyRelease (n : Notify) (out : Outcome ρ)
  /-- `BlockingWaiterRegistry::notify_*`: taking waiters. -/
  | notify (n : Notify) (out : Outcome ρ)
  /-- `BlockingWaiterRegistry::notify_*`: waking the taken waiters. -/
  | signal (waiter : ℕ) (rest : List ℕ) (out : Outcome ρ)
  /-- `wait_while_locked`: the loop condition. -/
  | check (w : Condition σ ρ) (n : ℕ)
  /-- `wait_while_for`: `timer.clock().now()`. -/
  | sample (timeout : ℕ) (w : Condition σ ρ)
  /-- `wait_while_for`: the first check. -/
  | checkFor (timeout startedAt : ℕ) (w : Condition σ ρ)
  /-- `wait_while_with_deadline`: the first check. -/
  | checkDeadline (deadline : ℕ) (w : Condition σ ρ)
  /-- `timer.at(deadline)`, in a predicate wait with or without the early poll of
  `wait_while_with_deadline`, or in a guard wait. -/
  | timerAt (deadline : ℕ) (c : Caller σ ρ) (early : Bool)
  /-- `StdMonitorGuard::wait_for`: `timer().after(timeout)`. -/
  | timerAfter (timeout : ℕ)
  /-- `wait_while_with_deadline`: the poll right after the registration of the deadline. -/
  | earlyPoll (w : Condition σ ρ)
  /-- `wait_while_with_timer_locked`: the check after a guard wait. -/
  | recheck (w : Condition σ ρ) (n : ℕ) (status : WaitTimeoutStatus)
  /-- The action of a predicate wait. -/
  | act (w : Condition σ ρ) (timed : Bool)
  /-- `wait_with_timer`: the poll without a waiter. -/
  | pollNoWaiter (c : Caller σ ρ)
  /-- `wait_for_notification`, `wait_with_timer`: the registration. -/
  | register (timed : Bool) (c : Caller σ ρ)
  /-- `wait_with_timer`: the poll with the registered waiter. -/
  | pollRegistered (c : Caller σ ρ) (g : Registration)
  /-- `wait_with_timer`: the early return drops the registration. -/
  | dropEarly (c : Caller σ ρ) (g : Registration) (r : Except TimeError Unit)
  /-- `wait_for_notification`, `wait_with_timer`: `release_guard`. -/
  | release (timed : Bool) (c : Caller σ ρ) (g : Registration)
  /-- `wait_for_notification`, `wait_with_timer`: `waiter.wait()`. -/
  | park (timed : Bool) (c : Caller σ ρ) (g : Registration)
  /-- `wait_for_notification`, `wait_with_timer`: `drop(registration)`. -/
  | dropRegistration (timed : Bool) (c : Caller σ ρ) (g : Registration)
  /-- `wait_for_notification`: `reacquire()`. -/
  | reacquire (c : Caller σ ρ)
  /-- `wait_with_timer`: `reacquire()`. -/
  | reacquireTimed (c : Caller σ ρ) (waiter : ℕ)
  /-- `wait_with_timer`: the last poll. -/
  | finalPoll (c : Caller σ ρ) (waiter : ℕ)
  /-- The result is decided and the guard is still held. -/
  | finish (out : Outcome ρ)
  /-- The result is decided and the guard is gone. -/
  | done (out : Outcome ρ)
  /-- A guard operation is about to return to user code. -/
  | guardDone (out : Outcome ρ)
  /-- A panic unwinds a guard wait that has a registration. -/
  | unwindRegistration (c : Caller σ ρ) (g : Registration)
  /-- A panic unwinds an operation that owns its guard. -/
  | unwindGuard
  /-- A panic unwinds a guard operation. -/
  | guardPanicked

end Syntax

variable {σ ρ : Type}

/-- Where an operation continues with the state lock. -/
def Entry.pc : Entry σ ρ → Pc σ ρ
  | .read f => .read f
  | .write f n => .write f n
  | .check w => .check w 0
  | .sample timeout w => .sample timeout w
  | .checkDeadline deadline w => .checkDeadline deadline w
  | .held => .held

/-- Where an operation of the monitor begins. -/
def Op.begin : Op σ ρ → Pc σ ρ
  | .withRead f => .acquire (.read f)
  | .withWrite f => .acquire (.write f none)
  | .withWriteNotifyOne f => .acquire (.write f (some .one))
  | .withWriteNotifyAll f => .acquire (.write f (some .all))
  | .notifyOne => .notify .one .unit
  | .notifyAll => .notify .all .unit
  | .waitWhile w => .acquire (.check w)
  | .waitWhileFor timeout w => .acquire (.sample timeout w)
  | .waitWhileWithDeadline deadline w => .acquire (.checkDeadline deadline w)
  | .waitWhileWithTotalTimeout timeout w => .deadlineAfter timeout w
  | .lock => .acquire .held
  | .isPoisoned => .isPoisoned
  | .clearPoison => .clearPoison

/-- Where an operation of a guard begins. -/
def GuardOp.begin : GuardOp σ ρ → Pc σ ρ
  | .deref f => .guardRead f
  | .derefMut f => .guardWrite f
  | .wait => .register false .guard
  | .waitFor timeout => .timerAfter timeout
  | .waitUntil deadline => .timerAt deadline .guard false
  | .drop => .finish .unit
  | .notifyOne => .notifyRelease .one .unit
  | .notifyAll => .notifyRelease .all .unit

/-- The choices of user code. -/
def jump : Pc σ ρ → Choice σ ρ → Option (Pc σ ρ)
  | .idle, .call op => some op.begin
  | .held, .guard op => some op.begin
  | .heldUnwinding, .catchPanic => some .held
  | .heldUnwinding, .propagate => some .unwindGuard
  | _, _ => none

/-- Wakes the taken waiters one after the other. -/
def wakeAll : List ℕ → Outcome ρ → Pc σ ρ
  | [], out => .done out
  | a :: rest, out => .signal a rest out

/-- The return of `wait_for_notification` to its caller. -/
def resume : Caller σ ρ → Pc σ ρ
  | .loop w n => .check w n
  | .guard => .guardDone .unit

/-- The return of `wait_with_timer` to its caller; a predicate wait passes an error on. -/
def resumeTimed : Caller σ ρ → Except TimeError WaitTimeoutStatus → Pc σ ρ
  | .loop _ _, .error e => .finish (.timed (.error e))
  | .loop w n, .ok status => .recheck w n status
  | .guard, r => .guardDone (.status r)

/-- A failed `timer.at` returns from a predicate wait or from a guard operation. -/
def timerFailed : Caller σ ρ → TimeError → Pc σ ρ
  | .loop _ _, e => .finish (.timed (.error e))
  | .guard, e => .guardDone (.status (.error e))

/-- A panic of a guard wait unwinds its caller. -/
def panicked : Caller σ ρ → Pc σ ρ
  | .loop _ _ => .unwindGuard
  | .guard => .guardPanicked

/-- **The code**: the primitive at each program counter. -/
def code (maxInstant : ℕ) : Pc σ ρ → Cmd σ ρ (Pc σ ρ)
  | .idle => .suspend
  | .held => .suspend
  | .heldUnwinding => .suspend
  | .acquire e => .lock e.pc
  | .deadlineAfter timeout w => .now fun now =>
    match checkedAdd maxInstant now timeout with
    | .ok deadline => .acquire (.checkDeadline deadline w)
    | .error e => .done (.timed (.error e))
  | .read f => .read f fun
    | some r => .finish (.value r)
    | none => .unwindGuard
  | .write f n => .write f fun
    | some r =>
      match n with
      | none => .finish (.value r)
      | some n => .notifyRelease n (.value r)
    | none => .unwindGuard
  | .guardRead f => .read f fun
    | some r => .guardDone (.value r)
    | none => .heldUnwinding
  | .guardWrite f => .write f fun
    | some r => .guardDone (.value r)
    | none => .heldUnwinding
  | .isPoisoned => .isPoisoned fun b => .done (.flag b)
  | .clearPoison => .clearPoison (.done .unit)
  | .notifyRelease n out => .releaseGuard fun
    | true => .notify n out
    | false => .unwindGuard
  | .notify .one out => .takeOne fun a => wakeAll a.toList out
  | .notify .all out => .takeAll fun as => wakeAll as out
  | .signal a rest out => .signal a (wakeAll rest out)
  | .check w n => .check (w.waiting n) fun
    | some true => .register false (.loop w (n + 1))
    | some false => .act w false
    | none => .unwindGuard
  | .sample timeout w => .now fun startedAt => .checkFor timeout startedAt w
  | .checkFor timeout startedAt w => .check (w.waiting 0) fun
    | some false => .act w true
    | some true =>
      if timeout = 0 then .finish (.timed (.ok .timedOut))
      else
        match checkedAdd maxInstant startedAt timeout with
        | .ok deadline => .timerAt deadline (.loop w 1) false
        | .error e => .finish (.timed (.error e))
    | none => .unwindGuard
  | .checkDeadline deadline w => .check (w.waiting 0) fun
    | some false => .act w true
    | some true => .timerAt deadline (.loop w 1) true
    | none => .unwindGuard
  | .timerAt deadline c early => .timerAt deadline fun
    | .error e => timerFailed c e
    | .ok _ =>
      match c, early with
      | .loop w _, true => .earlyPoll w
      | _, _ => .pollNoWaiter c
  | .timerAfter timeout => .now fun now =>
    match checkedAdd maxInstant now timeout with
    | .ok deadline => .timerAt deadline .guard false
    | .error e => .guardDone (.status (.error e))
  | .earlyPoll w => .pollTimer .noop fun
    | .ready (.ok _) => .finish (.timed (.ok .timedOut))
    | .ready (.error e) => .finish (.timed (.error e))
    | .pending => .pollNoWaiter (.loop w 1)
  | .recheck w n status => .check (w.waiting n) fun
    | some false => .act w true
    | some true =>
      if status.isTimedOut then .finish (.timed (.ok .timedOut))
      else .pollNoWaiter (.loop w (n + 1))
    | none => .unwindGuard
  | .act w timed => .write w.f fun
    | some r => .finish (if timed then .timed (.ok (.ready r)) else .value r)
    | none => .unwindGuard
  | .pollNoWaiter c => .pollTimer .noop fun
    | .ready r => resumeTimed c (r.map fun _ => .timedOut)
    | .pending => .register true c
  | .register timed c => .register fun
    | some g => if timed then .pollRegistered c g else .release false c g
    | none => panicked c
  | .pollRegistered c g => .pollTimer (.waiter g.waiter) fun
    | .ready r => .dropEarly c g r
    | .pending => .release true c g
  | .dropEarly c g r => .unregister g.waiterId (resumeTimed c (r.map fun _ => .timedOut))
  | .release timed c g => .releaseGuard fun
    | true => .park timed c g
    | false => .unwindRegistration c g
  | .park timed c g => .park g.waiter (.dropRegistration timed c g)
  | .dropRegistration timed c g =>
    .unregister g.waiterId (if timed then .reacquireTimed c g.waiter else .reacquire c)
  | .reacquire c => .lock (resume c)
  | .reacquireTimed c a => .lock (.finalPoll c a)
  | .finalPoll c a => .pollTimer (.waiter a) fun
    | .ready r => resumeTimed c (r.map fun _ => .timedOut)
    | .pending => resumeTimed c (.ok .woken)
  | .finish out => .ret out .idle
  | .done out => .ret out .idle
  | .guardDone out => .retGuard out .held
  | .unwindRegistration c g => .unregister g.waiterId (panicked c)
  | .unwindGuard => .unwind .idle
  | .guardPanicked => .retGuard .panicked .heldUnwinding

/-- The program of a blocking monitor whose clock has instants up to `maxInstant`. -/
def program (maxInstant : ℕ) : Program σ ρ (Pc σ ρ) (Choice σ ρ) :=
  ⟨code maxInstant, jump, .idle⟩

/-- The resources of a thread at each program counter. -/
def typ : Pc σ ρ → Res
  | .idle | .acquire _ | .deadlineAfter _ _ | .isPoisoned | .clearPoison | .notify _ _ |
    .done _ | .reacquire _ => .idle
  | .signal a rest _ => { Res.idle with sig := a :: rest }
  | .held | .heldUnwinding | .read _ | .write _ _ | .guardRead _ | .guardWrite _ |
    .notifyRelease _ _ | .check _ _ | .sample _ _ | .checkFor _ _ _ | .checkDeadline _ _ |
    .timerAt _ _ _ | .timerAfter _ | .act _ _ | .finish _ | .guardDone _ | .unwindGuard |
    .guardPanicked => .guard
  | .earlyPoll _ | .recheck _ _ _ | .pollNoWaiter _ => { Res.guard with timer := true }
  | .register timed _ => { Res.guard with timer := timed }
  | .pollRegistered _ g | .dropEarly _ g _ => ⟨true, true, some g, some g.waiter, []⟩
  | .release timed _ g => ⟨true, timed, some g, some g.waiter, []⟩
  | .park timed _ g | .dropRegistration timed _ g => ⟨false, timed, some g, some g.waiter, []⟩
  | .reacquireTimed _ a => ⟨false, true, none, some a, []⟩
  | .finalPoll _ a => ⟨true, true, none, some a, []⟩
  | .unwindRegistration _ g => ⟨true, false, some g, some g.waiter, []⟩

/-- Every operation of the monitor begins without resources. -/
@[simp] lemma typ_begin (op : Op σ ρ) : typ op.begin = .idle := by
  cases op <;> rfl

/-- Every operation of a guard begins with the guard. -/
@[simp] lemma typ_guard_begin (op : GuardOp σ ρ) : typ op.begin = .guard := by
  cases op <;> rfl

/-- Every operation of the monitor continues with the guard. -/
@[simp] lemma typ_entry (e : Entry σ ρ) : typ e.pc = .guard := by
  cases e <;> rfl

/-- The signals of a notification are the waiters it took. -/
@[simp] lemma typ_wakeAll (as : List ℕ) (out : Outcome ρ) :
    typ (wakeAll as out : Pc σ ρ) = { Res.idle with sig := as } := by
  cases as <;> rfl

/-- A guard wait returns with the guard. -/
@[simp] lemma typ_resume (c : Caller σ ρ) : typ (resume c) = .guard := by
  cases c <;> rfl

@[simp] lemma typ_timerFailed (c : Caller σ ρ) (e : TimeError) :
    typ (timerFailed c e) = .guard := by
  cases c <;> rfl

@[simp] lemma typ_panicked (c : Caller σ ρ) : typ (panicked c) = .guard := by
  cases c <;> rfl

/-- A timed guard wait returns with the guard, and into a predicate wait with its future. -/
lemma typ_resumeTimed (a : Option ℕ) (c : Caller σ ρ) (r : Except TimeError WaitTimeoutStatus) :
    (⟨true, true, none, a, []⟩ : Res).Forgets (typ (resumeTimed c r)) := by
  cases c <;> cases r <;> simp [resumeTimed, typ, Res.guard, Res.idle, Res.forgets_iff]

/-- **Every primitive of the blocking program is well typed.** -/
lemma code_checks (maxInstant : ℕ) (p : Pc σ ρ) : (code maxInstant p).Checks typ (typ p) := by
  intro d k h
  cases p with
  | idle | held | heldUnwinding => cases h
  | acquire | reacquire =>
    cases h
    simp only [typ_entry, typ_resume]
    exact ⟨⟨rfl, rfl⟩, .refl _⟩
  | deadlineAfter | timerAfter =>
    cases h
    refine ⟨trivial, ?_⟩
    dsimp only
    split <;> exact .refl _
  | read | guardRead | guardWrite | act =>
    cases h
    refine ⟨⟨rfl, rfl⟩, ?_⟩
    dsimp only
    split <;> exact .refl _
  | write f n =>
    cases h
    refine ⟨⟨rfl, rfl⟩, ?_⟩
    cases n <;> dsimp only <;> split <;> exact .refl _
  | isPoisoned | clearPoison | sample =>
    cases h
    exact ⟨trivial, .refl _⟩
  | notifyRelease | release =>
    cases h
    exact ⟨rfl, .refl _⟩
  | notify n out =>
    cases n <;> cases h <;> simp only [Res.Step, typ_wakeAll]
    case one.takeOne g =>
      refine ⟨⟨rfl, rfl, rfl⟩, ?_⟩
      cases g <;> exact .refl _
    case all.takeAll gs => exact ⟨⟨rfl, rfl, rfl⟩, .refl _⟩
  | signal a rest out =>
    cases h
    simp only [Res.Step, typ_wakeAll]
    exact ⟨rfl, .refl _⟩
  | check | checkDeadline =>
    cases h
    refine ⟨⟨rfl, rfl⟩, ?_⟩
    dsimp only
    split <;> exact .refl _
  | checkFor timeout startedAt w =>
    cases h
    refine ⟨⟨rfl, rfl⟩, ?_⟩
    dsimp only
    split
    · exact .refl _
    · split
      · exact .refl _
      · split <;> exact .refl _
    · exact .refl _
  | recheck w n status =>
    cases h
    refine ⟨⟨rfl, rfl⟩, ?_⟩
    dsimp only
    split
    · simp [typ, Res.after, Res.forgets_iff, Res.guard, Res.idle]
    · cases status <;>
        simp [typ, Res.after, Res.forgets_iff, Res.guard, Res.idle, WaitTimeoutStatus.isTimedOut]
    · simp [typ, Res.after, Res.forgets_iff, Res.guard, Res.idle]
  | timerAt deadline c early =>
    cases h with
    | timerAt _ _ x =>
      refine ⟨trivial, ?_⟩
      cases x with
      | error e =>
        simp only [typ_timerFailed]
        exact .refl _
      | ok _ => cases c <;> cases early <;> exact .refl _
  | earlyPoll w =>
    cases h
    refine ⟨⟨rfl, by simp⟩, ?_⟩
    dsimp only
    split <;> simp [typ, Res.after, Res.forgets_iff, Res.guard, Res.idle]
  | pollNoWaiter c =>
    cases h with
    | pollTimer _ _ x =>
      refine ⟨⟨rfl, by simp⟩, ?_⟩
      cases x with
      | pending => exact .refl _
      | ready r => exact typ_resumeTimed _ c _
  | register timed c =>
    cases h with
    | register _ g =>
      refine ⟨⟨rfl, rfl⟩, ?_⟩
      cases g with
      | none =>
        simp only [typ_panicked]
        simp [typ, Res.after, Res.forgets_iff, Res.guard, Res.idle]
      | some g => cases timed <;> exact .refl _
  | pollRegistered c g =>
    cases h with
    | pollTimer _ _ x =>
      refine ⟨⟨rfl, by simp [typ]⟩, ?_⟩
      cases x <;> exact .refl _
  | dropEarly c g r =>
    cases h
    exact ⟨⟨g, rfl, rfl⟩, typ_resumeTimed _ c _⟩
  | park timed c g =>
    cases h
    exact ⟨⟨rfl, g, rfl, rfl⟩, .refl _⟩
  | dropRegistration timed c g =>
    cases h
    refine ⟨⟨g, rfl, rfl⟩, ?_⟩
    cases timed <;> simp [typ, Res.after, Res.forgets_iff, Res.idle]
  | reacquireTimed c a =>
    cases h
    exact ⟨⟨rfl, rfl⟩, .refl _⟩
  | finalPoll c a =>
    cases h with
    | pollTimer _ _ x =>
      refine ⟨⟨rfl, by simp [typ]⟩, ?_⟩
      cases x <;> exact typ_resumeTimed _ c _
  | finish | done | guardDone | guardPanicked =>
    cases h
    exact ⟨by simp [Res.Needs, typ, Res.guard, Res.idle], .refl _⟩
  | unwindRegistration c g =>
    cases h
    refine ⟨⟨g, rfl, rfl⟩, ?_⟩
    simp only [typ_panicked]
    simp [typ, Res.after, Res.forgets_iff, Res.guard, Res.idle]
  | unwindGuard =>
    cases h
    exact ⟨⟨rfl, rfl⟩, .refl _⟩

/-- **The program of a blocking monitor is typed.** -/
def typed (maxInstant : ℕ) (Tid : Type) [DecidableEq Tid] :
    (program maxInstant : Program σ ρ (Pc σ ρ) (Choice σ ρ)).Typed Tid :=
  .ofChecks typ rfl (code_checks maxInstant) (by
    intro p x p' h
    cases p <;> cases x <;> simp only [program, jump, reduceCtorEq] at h <;> cases h
    · exact typ_begin _
    · exact typ_guard_begin _
    all_goals rfl)

end Blocking

end QubitLock
