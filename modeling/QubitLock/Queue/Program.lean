import QubitLock.Blocking.Calls
import QubitLock.Monitor.Client
import QubitLock.Queue.State

set_option relaxedAutoImplicit false
set_option autoImplicit false

/-!
# The bounded queue on a blocking monitor

`push`, `pop` and `pop_for` (`examples/bounded_queue.rs`) wait on a monitor until their operation is
possible, and notify all afterwards if it changed the queue. `close` is `Monitor::with_write_notify_all`
(`monitor/monitor.rs`), the default method of the trait: it writes, gives the lock back, and then
notifies all. So each operation is a call of the monitor with a notification after it, and other threads
can come in between.

## Main definitions

* `Queue.Op.call` — the call of an operation.
* `Queue.Op.after` — when an operation notifies.
* `Queue.client` — the queue as a client of a blocking monitor.
-/

namespace QubitLock.Queue

variable {α : Type}

/-- An action that does not panic. -/
def action (f : QueueState α → QueueState α × Res α) (s : QueueState α) :
    QueueState α × Option (Res α) :=
  ((f s).1, some (f s).2)

/-- The closures of `push`. -/
def pushing (item : α) : Condition (QueueState α) (Res α) :=
  .ofReady (fun _ s => some s.canPush) (action (QueueState.pushBack item))

/-- The closures of `pop` and `pop_for`. -/
def popping : Condition (QueueState α) (Res α) :=
  .ofReady (fun _ s => some s.canPop) (action QueueState.popFront)

/-- The call of an operation on the monitor. -/
def Op.call : Op α → Blocking.Op (QueueState α) (Res α)
  | .push item => .waitWhile (pushing item)
  | .pop => .waitWhile popping
  | .popFor timeout => .waitWhileFor timeout popping
  | .close => .withWrite (action QueueState.close)

/-- The notification of an operation, which depends on what its call returned. -/
def Op.after : Op α → Outcome (Res α) → Option Notify
  | .push _, .value (.pushed (.ok _)) => some .all
  | .pop, .value (.popped (some _)) => some .all
  | .popFor _, .timed (.ok (.ready (.popped (some _)))) => some .all
  | .close, .value _ => some .all
  | _, _ => none

/-- The notifications of the monitor. -/
def notification : Notify → Blocking.Choice (QueueState α) (Res α)
  | .one => .call .notifyOne
  | .all => .call .notifyAll

/-- The queue as a client of a blocking monitor. -/
def client (α : Type) (maxInstant : ℕ) :
    Client (Blocking.program maxInstant : Program (QueueState α) (Res α) _ _) (Op α) where
  first op := .call op.call
  after := Op.after
  notify := notification
  returns {p out k} h := by
    cases p with
    | notify n out => cases n <;> cases h
    | _ => cases h <;> rfl
  unwinds {p k} h := by
    cases p with
    | notify n out => cases n <;> cases h
    | _ => cases h <;> rfl

/-- The program counters of the queue. -/
abbrev Pc (α : Type) := ClientPc (Blocking.Pc (QueueState α) (Res α)) (Op α)

/-- The labels of the runs of the queue. -/
abbrev Label (α Tid : Type) := Program.Label (QueueState α) (Res α) (ClientChoice (Op α)) Tid

/-- The runs of a queue on a fresh monitor. -/
abbrev Run {Tid : Type} [DecidableEq Tid] (maxInstant : ℕ) (s₀ : Setup (QueueState α))
    (tr : List (Label α Tid)) (c : Threads.Conf (Mem (QueueState α) Tid) Tid (Pc α)) : Prop :=
  (client α maxInstant).program.Run s₀ tr c

/-- The operation that a choice calls. -/
def called : ClientChoice (Op α) → Option (Op α)
  | .op o => some o
  | .notify _ => none

/-- The closures of a waiting operation. -/
def Op.waits : Op α → Option (Condition (QueueState α) (Res α))
  | .push item => some (pushing item)
  | .pop | .popFor _ => some popping
  | .close => none

/-- The call of an operation waits with its closures. -/
lemma Op.condition_call (op : Op α) : (Blocking.Call.op op.call).condition = op.waits := by
  cases op <;> rfl

end QubitLock.Queue
