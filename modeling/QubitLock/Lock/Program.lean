import QubitLock.Library.Calls
import QubitLock.Library.Holders

set_option relaxedAutoImplicit false
set_option autoImplicit false

/-!
# The lock traits

The traits of `src/lock` and their implementations as one program over a lock that protects a value:
`DataLock` and `AsyncDataLock` (closures run under the lock), `Lock`, `ReadWriteLock` and their
asynchronous forms (guards that are handed to the caller), and the adapters `ReadLock` and
`WriteLock`. The implementations for `&L` and `Arc<L>` forward to the same lock.

An *activity* is a call, from its beginning until the guard it may have got is gone; a thread that
owns several guards is several activities. Closures are arbitrary: an answer `none` is a panic, and a
mutating closure that panics keeps what it wrote. A closure takes two steps, one in which it looks at
the protected value and one in which it ends, and the other activities move in between.

What the libraries decide is told by the outside world, at each step. A backend refuses a lock that
nobody has in an incompatible mode only while another activity waits for it, because its queue may
reserve the lock; a Tokio lock gives up a poll when its task has used up its budget; and the thread of
an activity may be unwinding when it takes the lock, from a panic that has nothing to do with it.

## Main definitions

* `Backend` — the lock types; `Backend.mode`, `Backend.poisons`, `Backend.isAsync` — their kinds.
* `Op` — the operations of the traits.
* `World` — what the libraries and the thread of an activity decide at a step.
* `Pc`, `fire`, `effect`, `jump` — the code of the operations.
* `threads` — the interleaving of any number of activities.

## Main results

* `fire_allows` — what a report says about the memory and the guard of its activity.
* `jump_cases` — what a choice can do.
-/

namespace QubitLock.Lock

/-- `TryLockError`. -/
inductive TryLockError where
  | wouldBlock
  | poisoned
  deriving DecidableEq

/-- The lock types that implement the traits. -/
inductive Backend where
  | stdMutex
  | stdRwLock
  | parkingLotMutex
  | parkingLotRwLock
  | tokioMutex
  | tokioRwLock
  deriving DecidableEq

/-- What the holder of a guard may do with the protected value. -/
inductive Access where
  | read
  | write
  deriving DecidableEq

namespace Backend

/-- A read-write lock, as opposed to a mutex. -/
def isRwLock : Backend → Bool
  | stdRwLock | parkingLotRwLock | tokioRwLock => true
  | _ => false

/-- The mode in which an access takes the lock: a mutex has one mode only. -/
def mode (b : Backend) : Access → LockMode
  | .read => if b.isRwLock then .shared else .exclusive
  | .write => .exclusive

/-- The locks of the standard library record the panic of a guard that could write. -/
def poisons : Backend → Bool
  | stdMutex | stdRwLock => true
  | _ => false

/-- The locks whose waiting operations are futures. -/
def isAsync : Backend → Bool
  | tokioMutex | tokioRwLock => true
  | _ => false

end Backend

section Syntax

variable (σ ρ : Type)

/-- The operations of the traits. -/
inductive Op where
  /-- `DataLock::with_read`. -/
  | withRead (f : σ → Option ρ)
  /-- `DataLock::with_write`. -/
  | withWrite (f : σ → σ × Option ρ)
  /-- `DataLock::try_with_read`. -/
  | tryWithRead (f : σ → Option ρ)
  /-- `DataLock::try_with_write`. -/
  | tryWithWrite (f : σ → σ × Option ρ)
  /-- `Lock::lock`. -/
  | lock
  /-- `Lock::try_lock`. -/
  | tryLock
  /-- `ReadWriteLock::read`, and `lock` of a `ReadLock`. -/
  | read
  /-- `ReadWriteLock::write`, and `lock` of a `WriteLock`. -/
  | write
  /-- `ReadWriteLock::try_read`, and `try_lock` of a `ReadLock`. -/
  | tryRead
  /-- `ReadWriteLock::try_write`, and `try_lock` of a `WriteLock`. -/
  | tryWrite

/-- What an operation returns to its caller. -/
inductive Outcome where
  /-- The result of the closure. -/
  | value (r : ρ)
  /-- A guard. -/
  | guard
  /-- The error of a `try` operation. -/
  | error (e : TryLockError)
  deriving DecidableEq

/-- The choices of user code and of its executor. -/
inductive Choice where
  | call (op : Op σ ρ)
  /-- The executor polls the future of a call. -/
  | poll
  /-- The future of a call is dropped. -/
  | cancel
  /-- Reads through a guard. -/
  | deref (f : σ → ρ)
  /-- Writes through a guard. -/
  | derefMut (f : σ → σ × ρ)
  /-- Drops a guard. -/
  | drop
  /-- Panics while it owns a guard. -/
  | panic

/-- The program counters of an activity. -/
inductive Pc where
  /-- User code. -/
  | idle
  /-- The future of an asynchronous operation, which has not tried the lock yet. -/
  | future (op : Op σ ρ)
  /-- The future of an asynchronous operation that waits in the queue of the lock. -/
  | pending (op : Op σ ρ)
  /-- One poll of the acquisition; `queued` tells whether it waits in the queue. -/
  | poll (op : Op σ ρ) (queued : Bool)
  /-- A future that waits in the queue is dropped. -/
  | leave
  /-- A blocking acquisition. -/
  | acquire (op : Op σ ρ)
  /-- A blocking acquisition that waits in the queue of the lock. -/
  | parked (op : Op σ ρ)
  /-- An acquisition that does not wait. -/
  | tryAcquire (op : Op σ ρ)
  /-- The closure of a reading operation is about to begin. -/
  | runRead (f : σ → Option ρ) (md : LockMode)
  /-- The closure of a reading operation, which has seen `v`. -/
  | reading (f : σ → Option ρ) (v : σ) (md : LockMode)
  /-- The closure of a writing operation is about to begin. -/
  | runWrite (f : σ → σ × Option ρ)
  /-- The closure of a writing operation, which has seen `v`. -/
  | writing (f : σ → σ × Option ρ) (v : σ)
  /-- The result is decided and the guard is still alive. -/
  | release (md : LockMode) (out : Outcome ρ)
  /-- A panic drops the guard. -/
  | unwind (md : LockMode)
  /-- The result is decided and there is no guard. -/
  | done (out : Outcome ρ)
  /-- A panic is about to reach the caller. -/
  | panicked
  /-- The guard is about to be returned. -/
  | guardDone (md : LockMode)
  /-- User code that owns a guard. -/
  | held (md : LockMode)
  /-- User code reads through its guard. -/
  | deref (f : σ → ρ) (md : LockMode)
  /-- User code writes through its guard. -/
  | derefMut (f : σ → σ × ρ)
  /-- User code drops its guard. -/
  | drop (md : LockMode)

/-- The report of a step. -/
inductive Did where
  /-- The lock was taken; `poisoned` is the marker that was found, and `panicking` tells whether the
  thread was unwinding. -/
  | acquired (md : LockMode) (poisoned panicking : Bool)
  /-- The lock was not available to an operation that does not wait. -/
  | refused
  /-- The lock was not available, and the activity waits in the queue. -/
  | queued
  /-- A poll gave up without a try at the lock. -/
  | yielded
  /-- A dropped future left the queue. -/
  | left
  /-- A closure began and saw `v`. -/
  | began (v : σ)
  /-- A reading closure ran on `v`. -/
  | didRead (f : σ → Option ρ) (v : σ)
  /-- A mutating closure ran on `v`. -/
  | wrote (f : σ → σ × Option ρ) (v : σ)
  /-- A guard was dropped, by a panic or not. -/
  | released (md : LockMode) (panicking : Bool)
  | returned (out : Outcome ρ)
  | unwound

end Syntax

/-- The protected value and the state of its lock. -/
structure Mem (σ Tid : Type) where
  /-- The protected value. -/
  value : σ
  /-- Who holds the lock. -/
  holders : Holders Tid
  /-- The activities in the queue of the lock. -/
  waiting : List Tid
  /-- The poison marker. -/
  poisoned : Bool
  /-- What a guard remembers of its acquisition: whether the thread was unwinding then. -/
  unwinding : Tid → Bool

/-- A new lock around a value. -/
def Mem.new {σ Tid : Type} (value : σ) : Mem σ Tid := ⟨value, .free, [], false, fun _ => false⟩

/-- What the outside world decides when an activity makes a step. -/
structure World where
  /-- The queue lets the activity pass those that wait. -/
  admits : Bool
  /-- The task has used up the budget of its executor. -/
  yields : Bool
  /-- The thread of the activity is unwinding. -/
  panicking : Bool

/-- A world in which nothing disturbs the step. -/
def World.quiet : World := ⟨true, false, false⟩

variable {σ ρ Tid : Type}

namespace Op

/-- The access that an operation asks for. -/
def access : Op σ ρ → Access
  | withRead _ | tryWithRead _ | read | tryRead => .read
  | withWrite _ | tryWithWrite _ | lock | tryLock | write | tryWrite => .write

/-- The operations that never wait. -/
def isTry : Op σ ρ → Bool
  | tryWithRead _ | tryWithWrite _ | tryLock | tryRead | tryWrite => true
  | withRead _ | withWrite _ | lock | read | write => false

/-- The traits that a lock type implements: `Lock` is for mutexes, `ReadWriteLock` for read-write
locks, and `DataLock` for all of them. -/
def implementedBy : Op σ ρ → Backend → Bool
  | withRead _, _ | withWrite _, _ | tryWithRead _, _ | tryWithWrite _, _ => true
  | lock, b | tryLock, b => !b.isRwLock
  | read, b | write, b | tryRead, b | tryWrite, b => b.isRwLock

/-- Where an operation continues with its guard. -/
def entered (md : LockMode) : Op σ ρ → Pc σ ρ
  | withRead f | tryWithRead f => .runRead f md
  | withWrite f | tryWithWrite f => .runWrite f
  | lock | tryLock | read | write | tryRead | tryWrite => .guardDone md

/-- Where an operation begins. -/
def begin (b : Backend) (op : Op σ ρ) : Pc σ ρ :=
  if op.isTry then .tryAcquire op else if b.isAsync then .future op else .acquire op

end Op

/-- The choices of user code. A guard that shares the lock gives no mutable access, and a future can
be dropped only while it is suspended. -/
def jump (b : Backend) : Pc σ ρ → Choice σ ρ → Option (Pc σ ρ)
  | .idle, .call op => if op.implementedBy b then some (op.begin b) else none
  | .future op, .poll => some (.poll op false)
  | .future _, .cancel => some .idle
  | .pending op, .poll => some (.poll op true)
  | .pending _, .cancel => some .leave
  | .held md, .deref f => some (.deref f md)
  | .held .exclusive, .derefMut f => some (.derefMut f)
  | .held md, .drop => some (.drop md)
  | .held md, .panic => some (.unwind md)
  | _, _ => none

variable [DecidableEq Tid]

/-- Another activity waits for the lock. -/
def Mem.contended (m : Mem σ Tid) (t : Tid) : Bool := m.waiting.any fun u => decide (u ≠ t)

/-- One try to take the raw lock. It fails if somebody has the lock in a mode that does not go with
`md`; otherwise only a queue in which somebody else waits can keep the lock from the activity. -/
def Mem.tryAcquire (m : Mem σ Tid) (t : Tid) (md : LockMode) (admits : Bool) : Bool :=
  (admits || !m.contended t) && (m.holders.acquire t md).isSome

/-- The code: the step of an activity. -/
def fire (b : Backend) (m : Mem σ Tid) (t : Tid) (o : World) : Pc σ ρ → Option (Did σ ρ × Pc σ ρ)
  | .acquire op =>
    let md := b.mode op.access
    if m.tryAcquire t md o.admits then
      -- `lock().unwrap()` panics with the guard inside the error
      some (.acquired md m.poisoned o.panicking, if m.poisoned then .unwind md else op.entered md)
    else some (.queued, .parked op)
  | .parked op =>
    let md := b.mode op.access
    if m.tryAcquire t md o.admits then
      some (.acquired md m.poisoned o.panicking, if m.poisoned then .unwind md else op.entered md)
    else none
  | .poll op queued =>
    let md := b.mode op.access
    if o.yields then some (.yielded, if queued then .pending op else .future op)
    else if m.tryAcquire t md o.admits then
      some (.acquired md m.poisoned o.panicking, op.entered md)
    else some (.queued, .pending op)
  | .leave => some (.left, .idle)
  | .tryAcquire op =>
    let md := b.mode op.access
    if m.tryAcquire t md o.admits then
      some (.acquired md m.poisoned o.panicking,
        if m.poisoned then .release md (.error .poisoned) else op.entered md)
    else some (.refused, .done (.error .wouldBlock))
  | .runRead f md => some (.began m.value, .reading f m.value md)
  | .reading f v md => some (.didRead f v,
      match f v with
      | some r => .release md (.value r)
      | none => .unwind md)
  | .runWrite f => some (.began m.value, .writing f m.value)
  | .writing f v => some (.wrote f v,
      match (f v).2 with
      | some r => .release .exclusive (.value r)
      | none => .unwind .exclusive)
  | .release md out => some (.released md false, .done out)
  | .unwind md => some (.released md true, .panicked)
  | .done out => some (.returned out, .idle)
  | .panicked => some (.unwound, .idle)
  | .guardDone md => some (.returned .guard, .held md)
  | .deref f md => some (.didRead (fun v => some (f v)) m.value, .held md)
  | .derefMut f => some (.wrote (fun v => ((f v).1, some (f v).2)) m.value, .held .exclusive)
  | .drop md => some (.released md false, .idle)
  | .idle | .future _ | .pending _ | .held _ => none

/-- The effect of a reported step. A guard poisons its lock if it is exclusive, its thread was not
unwinding when it was taken, and a panic drops it. -/
def effect (b : Backend) (m : Mem σ Tid) (t : Tid) : Did σ ρ → Mem σ Tid
  | .acquired md _ panicking =>
    { m with
      holders := (m.holders.acquire t md).getD m.holders
      waiting := m.waiting.filter (· ≠ t)
      unwinding := Function.update m.unwinding t panicking }
  | .queued => { m with waiting := m.waiting.insert t }
  | .left => { m with waiting := m.waiting.filter (· ≠ t) }
  | .wrote f v => { m with value := (f v).1 }
  | .released md panicking =>
    { m with
      holders := m.holders.release t
      poisoned := m.poisoned ||
        (panicking && b.poisons && decide (md = .exclusive) && !m.unwinding t) }
  | _ => m

/-- The activities that use one lock. -/
def threads (b : Backend) (σ ρ Tid : Type) [DecidableEq Tid] :
    Threads (Mem σ Tid) Tid (Pc σ ρ) World (Did σ ρ) (Choice σ ρ) Empty Empty where
  fire := fire b
  effect := effect b
  jump := jump b
  ambient _ := Empty.elim

/-! ## What a step can do -/

/-- The mode of the guard that exists at a program counter. -/
def Pc.mode : Pc σ ρ → Option LockMode
  | .runRead _ md | .reading _ _ md | .release md _ | .unwind md | .guardDone md | .held md |
    .deref _ md | .drop md => some md
  | .runWrite _ | .writing _ _ | .derefMut _ => some .exclusive
  | .idle | .future _ | .pending _ | .poll _ _ | .leave | .acquire _ | .parked _ | .tryAcquire _ |
    .done _ | .panicked => none

/-- The activity waits in the queue of the lock. -/
def Pc.waits : Pc σ ρ → Bool
  | .pending _ | .poll _ true | .leave | .parked _ => true
  | _ => false

/-- The value that a running closure has seen. -/
def Pc.seen : Pc σ ρ → Option σ
  | .reading _ v _ | .writing _ v => some v
  | _ => none

/-- The value that a closure saw, when it began or when it ended. -/
def Did.saw : Did σ ρ → Option σ
  | .began v | .didRead _ v | .wrote _ v => some v
  | _ => none

/-- What a report says about the memory it was made in and about its activity, which goes from `p` to
`p'`. A closure ends on the value that it has seen. -/
def Allows (m : Mem σ Tid) (t : Tid) (p p' : Pc σ ρ) : Did σ ρ → Prop
  | .acquired md poisoned _ =>
    p.mode = none ∧ p'.mode = some md ∧ (m.holders.acquire t md).isSome ∧ poisoned = m.poisoned
  | .refused | .queued | .yielded | .left | .unwound => p.mode = none ∧ p'.mode = none
  | .began v => p.mode.isSome ∧ p'.mode = p.mode ∧ v = m.value
  | .didRead _ v => p.mode.isSome ∧ p'.mode = p.mode ∧ (p.seen = some v ∨ v = m.value)
  | .wrote _ v => p.mode = some .exclusive ∧ p'.mode = p.mode ∧ (p.seen = some v ∨ v = m.value)
  | .released md _ => p.mode = some md ∧ p'.mode = none
  | .returned _ => p'.mode = p.mode

/-- An operation that got its guard has it. -/
@[simp] lemma mode_entered (b : Backend) (op : Op σ ρ) :
    (op.entered (b.mode op.access)).mode = some (b.mode op.access) := by
  cases op <;> rfl

@[simp] lemma waits_entered (op : Op σ ρ) (md : LockMode) : (op.entered md).waits = false := by
  cases op <;> rfl

@[simp] lemma seen_entered (op : Op σ ρ) (md : LockMode) : (op.entered md).seen = none := by
  cases op <;> rfl

/-- A raw acquisition that succeeds finds nobody in its way. -/
lemma isSome_of_tryAcquire {m : Mem σ Tid} {t : Tid} {md : LockMode} {admits : Bool}
    (h : m.tryAcquire t md admits = true) : (m.holders.acquire t md).isSome := by
  simp only [Mem.tryAcquire, Bool.and_eq_true] at h
  exact h.2

/-- A raw acquisition that its queue admits fails only if somebody has the lock. -/
lemma acquire_eq_none_of_tryAcquire {m : Mem σ Tid} {t : Tid} {md : LockMode} {admits : Bool}
    (hq : admits = true ∨ m.contended t = false) (h : m.tryAcquire t md admits = false) :
    m.holders.acquire t md = none := by
  rcases hq with rfl | hq <;> simpa [Mem.tryAcquire, *] using h

/-- Another activity is in the queue. -/
lemma contended_iff {m : Mem σ Tid} {t : Tid} :
    m.contended t = true ↔ ∃ u, u ≠ t ∧ u ∈ m.waiting := by
  simp [Mem.contended, and_comm]

/-- **A report describes the memory it was made in**, and follows the guard of its activity. -/
lemma fire_allows {b : Backend} {m : Mem σ Tid} {t : Tid} {o : World} {p p' : Pc σ ρ} {d : Did σ ρ}
    (h : fire b m t o p = some (d, p')) : Allows m t p p' d := by
  cases p with
  | acquire op | tryAcquire op =>
    simp only [fire] at h
    split at h <;> cases h
    · rename_i hacq
      refine ⟨rfl, ?_, isSome_of_tryAcquire hacq, rfl⟩
      split
      · rfl
      · exact mode_entered b op
    · exact ⟨rfl, rfl⟩
  | parked op =>
    simp only [fire] at h
    split at h <;> cases h
    rename_i hacq
    refine ⟨rfl, ?_, isSome_of_tryAcquire hacq, rfl⟩
    split
    · rfl
    · exact mode_entered b op
  | poll op queued =>
    simp only [fire] at h
    split at h
    · cases h
      refine ⟨rfl, ?_⟩
      split <;> rfl
    · split at h <;> cases h
      · rename_i hacq
        exact ⟨rfl, mode_entered b op, isSome_of_tryAcquire hacq, rfl⟩
      · exact ⟨rfl, rfl⟩
  | reading f v md | writing f v =>
    cases h
    refine ⟨rfl, ?_, .inl rfl⟩
    split <;> rfl
  | runRead | runWrite =>
    cases h
    exact ⟨rfl, rfl, rfl⟩
  | deref | derefMut =>
    cases h
    exact ⟨rfl, rfl, .inr rfl⟩
  | leave | release | unwind | panicked | drop =>
    cases h
    exact ⟨rfl, rfl⟩
  | done | guardDone =>
    cases h
    rfl
  | idle | future | pending | held => cases h

/-- **A report follows the place of its activity in the queue.** -/
lemma waits_of_fire {b : Backend} {m : Mem σ Tid} {t : Tid} {o : World} {p p' : Pc σ ρ} {d : Did σ ρ}
    (h : fire b m t o p = some (d, p')) :
    p'.waits = match d with
      | .queued => true
      | .acquired _ _ _ | .left => false
      | _ => p.waits := by
  cases p with
  | acquire op | tryAcquire op | parked op =>
    simp only [fire] at h
    split at h <;> cases h
    · dsimp only
      split
      · rfl
      · exact waits_entered op _
    all_goals rfl
  | poll op queued =>
    simp only [fire] at h
    split at h
    · cases h
      cases queued <;> rfl
    · split at h <;> cases h
      · exact waits_entered op _
      · rfl
  | reading | writing =>
    cases h
    dsimp only
    split <;> rfl
  | _ => cases h <;> rfl

/-- **A report follows the closure of its activity**: between its beginning and its end the closure
has seen a value. -/
lemma seen_of_fire {b : Backend} {m : Mem σ Tid} {t : Tid} {o : World} {p p' : Pc σ ρ} {d : Did σ ρ}
    (h : fire b m t o p = some (d, p')) :
    p'.seen = match d with
      | .began v => some v
      | _ => none := by
  cases p with
  | acquire op | tryAcquire op | parked op =>
    simp only [fire] at h
    split at h <;> cases h
    · dsimp only
      split
      · rfl
      · exact seen_entered op _
    all_goals rfl
  | poll op queued =>
    simp only [fire] at h
    split at h
    · cases h
      cases queued <;> rfl
    · split at h <;> cases h
      · exact seen_entered op _
      · rfl
  | reading | writing =>
    cases h
    dsimp only
    split <;> rfl
  | _ => cases h <;> rfl

/-- **What a choice can do.** -/
lemma jump_cases {b : Backend} {p p' : Pc σ ρ} {x : Choice σ ρ} (h : jump b p x = some p') :
    (∃ op, p = .idle ∧ x = .call op ∧ op.implementedBy b = true ∧ p' = op.begin b) ∨
    (∃ op, p = .future op ∧ (x = .poll ∧ p' = .poll op false ∨ x = .cancel ∧ p' = .idle)) ∨
    (∃ op, p = .pending op ∧ (x = .poll ∧ p' = .poll op true ∨ x = .cancel ∧ p' = .leave)) ∨
    ∃ md, p = .held md ∧ ((∃ f, x = .deref f ∧ p' = .deref f md) ∨
      (∃ f, md = .exclusive ∧ x = .derefMut f ∧ p' = .derefMut f) ∨
      x = .drop ∧ p' = .drop md ∨ x = .panic ∧ p' = .unwind md) := by
  unfold jump at h
  split at h
  · rename_i op
    split at h
    · rename_i himpl
      cases h
      exact .inl ⟨op, rfl, rfl, himpl, rfl⟩
    · cases h
  all_goals cases h <;> simp

/-- Where an operation begins. -/
lemma begin_cases (b : Backend) (op : Op σ ρ) :
    op.isTry = true ∧ op.begin b = .tryAcquire op ∨
    op.isTry = false ∧ b.isAsync = true ∧ op.begin b = .future op ∨
    op.isTry = false ∧ b.isAsync = false ∧ op.begin b = .acquire op := by
  unfold Op.begin
  cases op.isTry <;> cases b.isAsync <;> simp

/-- A choice takes no guard and leaves none, it keeps the place in the queue, and no closure runs
after it. -/
lemma kept_of_jump {b : Backend} {p p' : Pc σ ρ} {x : Choice σ ρ} (h : jump b p x = some p') :
    p'.mode = p.mode ∧ p'.waits = p.waits ∧ p'.seen = none := by
  rcases jump_cases h with ⟨op, rfl, -, -, rfl⟩ | ⟨op, rfl, ⟨-, rfl⟩ | ⟨-, rfl⟩⟩ |
    ⟨op, rfl, ⟨-, rfl⟩ | ⟨-, rfl⟩⟩ | ⟨md, rfl, ⟨f, -, rfl⟩ | ⟨f, rfl, -, rfl⟩ | ⟨-, rfl⟩ | ⟨-, rfl⟩⟩
  · rcases begin_cases b op with ⟨-, h⟩ | ⟨-, -, h⟩ | ⟨-, -, h⟩ <;> rw [h] <;> exact ⟨rfl, rfl, rfl⟩
  all_goals exact ⟨rfl, rfl, rfl⟩

/-- All activities in user code, and nobody has used the lock yet. -/
def start (σ ρ Tid : Type) (value : σ) : Threads.Conf (Mem σ Tid) Tid (Pc σ ρ) :=
  ⟨.new value, fun _ => .idle⟩

end QubitLock.Lock
