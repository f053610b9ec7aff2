import Mathlib.Data.Nat.Notation
import Mathlib.Tactic.Common

set_option relaxedAutoImplicit false
set_option autoImplicit false

/-!
# Timers and the results of timed waits

Timed waits race a notification against a Timer future. The Timer lives outside this repository
(`qubit_clock`); what the monitors rely on is modelled here. Instants and durations are counted
in clock ticks, and an instant is representable up to a bound of the clock.

A Timer future is pending until it completes with success or with an error. A poll that finds it
pending replaces the stored waker by the one passed in; completion takes the stored waker and
wakes it later. Completion may come at any time: that a successful one never comes before the
deadline is an assumption made where it is needed (`Lts.Always` over the trace).

## Main definitions

* `TimeError`, `WaitTimeoutStatus`, `WaitTimeoutResult` — the results of timed waits.
* `checkedAdd` — `MonotonicInstant::checked_add`.
* `TimerFuture`, `TimerFuture.poll` — one registered deadline.
-/

namespace QubitLock

/-- `qubit_clock::TimeError`. -/
inductive TimeError where
  | instantOverflow
  | clockDomainMismatch
  | timerUnavailable
  deriving DecidableEq

/-- The outcome of one timed suspension (`wait_timeout_status.rs`). -/
inductive WaitTimeoutStatus where
  | woken
  | timedOut
  deriving DecidableEq

namespace WaitTimeoutStatus

/-- Whether the suspension ended by the Timer. -/
def isTimedOut : WaitTimeoutStatus → Bool
  | woken => false
  | timedOut => true

end WaitTimeoutStatus

/-- The outcome of a timed predicate wait (`wait_timeout_result.rs`). -/
inductive WaitTimeoutResult (ρ : Type) where
  | ready (r : ρ)
  | timedOut
  deriving DecidableEq

/-- `MonotonicInstant::checked_add` on a clock whose instants go up to `maxInstant`. -/
def checkedAdd (maxInstant start timeout : ℕ) : Except TimeError ℕ :=
  if start + timeout ≤ maxInstant then .ok (start + timeout) else .error .instantOverflow

/-- A deadline is the exact sum, and it is representable. -/
lemma checkedAdd_eq_ok {maxInstant start timeout d : ℕ} :
    checkedAdd maxInstant start timeout = .ok d ↔
      d = start + timeout ∧ start + timeout ≤ maxInstant := by
  unfold checkedAdd
  split <;> simp_all [eq_comm]

/-- The addition fails exactly when the sum is not representable. -/
lemma checkedAdd_eq_error {maxInstant start timeout : ℕ} {e : TimeError} :
    checkedAdd maxInstant start timeout = .error e ↔
      e = .instantOverflow ∧ maxInstant < start + timeout := by
  unfold checkedAdd
  split <;> simp_all [eq_comm]

/-- The wakers that the monitors pass to a Timer: none at all, the one of a blocking waiter
object, or the one of the polling task. -/
inductive Waker where
  | noop
  | waiter (a : ℕ)
  | task
  deriving DecidableEq

/-- The result of one poll of a Timer future. -/
inductive Poll where
  | pending
  | ready (r : Except TimeError Unit)
  deriving DecidableEq

/-- A registered deadline: its completion, once there is one, and the stored waker. -/
structure TimerFuture where
  deadline : ℕ
  result : Option (Except TimeError Unit)
  waker : Option Waker

namespace TimerFuture

/-- `Timer::at`: a fresh future. -/
def at_ (deadline : ℕ) : TimerFuture := ⟨deadline, none, none⟩

/-- What a poll returns. -/
def poll (f : TimerFuture) : Poll :=
  match f.result with
  | none => .pending
  | some r => .ready r

/-- The future after a poll with waker `w`: a pending poll stores the waker. -/
def polled (f : TimerFuture) (w : Waker) : TimerFuture :=
  match f.result with
  | none => { f with waker := some w }
  | some _ => f

/-- The future after its completion, which takes the stored waker. -/
def complete (f : TimerFuture) (r : Except TimeError Unit) : TimerFuture :=
  { f with result := some r, waker := none }

@[simp] lemma polled_deadline (f : TimerFuture) (w : Waker) :
    (f.polled w).deadline = f.deadline := by
  unfold polled
  split <;> rfl

@[simp] lemma polled_result (f : TimerFuture) (w : Waker) :
    (f.polled w).result = f.result := by
  unfold polled
  split <;> simp_all

/-- A poll reports a completion exactly if there is one. -/
lemma poll_eq_ready {f : TimerFuture} {r : Except TimeError Unit} :
    f.poll = .ready r ↔ f.result = some r := by
  unfold poll
  split <;> simp_all

/-- A poll is pending exactly before completion. -/
lemma poll_eq_pending {f : TimerFuture} : f.poll = .pending ↔ f.result = none := by
  unfold poll
  split <;> simp_all

/-- A pending poll leaves exactly its own waker in the future. -/
lemma polled_waker {f : TimerFuture} {w : Waker} (h : f.result = none) :
    (f.polled w).waker = some w := by
  simp [polled, h]

end TimerFuture

end QubitLock
