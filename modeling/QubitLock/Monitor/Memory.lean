import Mathlib.Logic.Function.Basic
import QubitLock.Monitor.Timer
import QubitLock.Monitor.WaiterRegistry

set_option relaxedAutoImplicit false
set_option autoImplicit false

/-!
# The shared memory of a monitor and the primitives on it

A monitor protects one value with a state mutex and keeps a registry of waiter objects; the
operations of `src/monitor` are programs over the primitives of this file. Each primitive is one
atomic step: taking or dropping the state guard, one run of a closure under it, one registry
operation, one signal, one look at the clock or at a Timer future.

A primitive is executed in two halves. `Cmd.fire` reads the memory and gives a report (`Did`)
and the continuation; `Mem.effect` applies a report to the memory. `Mem.Allows` says which
reports a memory admits.

## Main definitions

* `Mem` — protected value, state mutex, registry, waiter objects, clock and Timer futures.
* `Cmd` — the primitives, each with its continuation; `Cmd.fire` — executing one.
* `Did`, `Mem.effect` — reports and their effects.
* `TimerEvent`, `Mem.timer` — what the Timer does on its own.

## Main results

* `Cmd.fire_allows` — a report always describes the memory it was made in.
-/

namespace QubitLock

/-- A registration object: its identifier in the registry and the waiter object it owns
(`BlockingWaiterRegistration`, `TokioConditionWaiterRegistration`). -/
structure Registration where
  waiterId : ℕ
  waiter : ℕ
  deriving DecidableEq

/-- What an operation of a monitor returns to its caller. -/
inductive Outcome (ρ : Type) where
  /-- The result of a closure. -/
  | value (r : ρ)
  /-- The result of a timed predicate wait. -/
  | timed (r : Except TimeError (WaitTimeoutResult ρ))
  /-- The result of a timed wait on a guard. -/
  | status (r : Except TimeError WaitTimeoutStatus)
  /-- The poison marker. -/
  | flag (b : Bool)
  /-- Nothing. -/
  | unit
  /-- The future was dropped before it completed. -/
  | cancelled
  /-- A panic left an operation on a guard that its user still owns. -/
  | panicked
  deriving DecidableEq

/-- The memory shared by the users of one monitor. Waiter objects are numbered in the order of
their allocation. -/
structure Mem (σ Tid : Type) where
  /-- The protected value. -/
  value : σ
  /-- The thread that holds the state mutex. -/
  owner : Option Tid
  /-- Whether the mutex records poisoning: the standard one does, the others do not. -/
  poisons : Bool
  /-- The poison marker. -/
  poisoned : Bool
  /-- The active waiters. -/
  registry : WaiterRegistry ℕ
  /-- The next waiter object to be allocated. -/
  nextWaiter : ℕ
  /-- The latch of each waiter object. -/
  signalled : ℕ → Bool
  /-- The current instant. -/
  clock : ℕ
  /-- Whether the slot of a thread's monitor guard is occupied. -/
  slot : Tid → Bool
  /-- The Timer future of a thread's current call. -/
  future : Tid → Option TimerFuture
  /-- Waiters whose waker a completed Timer future has taken and not yet woken. -/
  inFlight : List ℕ
  /-- Waiters whose waker a Timer was ever given. -/
  handed : List ℕ

/-- The primitives, each with the program counter to continue at for each answer. -/
inductive Cmd (σ ρ K : Type) where
  /-- Blocks until the state mutex is free and occupies the guard slot. -/
  | lock (k : K)
  /-- Polls the asynchronous state mutex once; it may be free and yet reserved for another. -/
  | tryLock (k : Bool → K)
  /-- `release_guard`: takes the guard out of its slot and drops it; `false` is the panic on an
  empty slot. -/
  | releaseGuard (k : Bool → K)
  /-- Evaluates a waiting predicate on the guarded value; `none` is a panic. -/
  | check (q : σ → Option Bool) (k : Option Bool → K)
  /-- Runs a reading closure on the guarded value; `none` is a panic. -/
  | read (f : σ → Option ρ) (k : Option ρ → K)
  /-- Runs a mutating closure on the guarded value; a panic keeps what it wrote. -/
  | write (f : σ → σ × Option ρ) (k : Option ρ → K)
  /-- Samples the clock. -/
  | now (k : ℕ → K)
  /-- `Timer::at`. -/
  | timerAt (deadline : ℕ) (k : Except TimeError Unit → K)
  /-- Polls the Timer future of the call. -/
  | pollTimer (w : Waker) (k : Poll → K)
  /-- Allocates and registers a waiter; `none` is the panic of the registry. -/
  | register (k : Option Registration → K)
  /-- `BlockingConditionWaiter::wait`: blocks until the latch of the waiter is set. -/
  | park (waiter : ℕ) (k : K)
  /-- Polls the notification of a waiter once. -/
  | pollNotified (waiter : ℕ) (k : Bool → K)
  /-- Drops a registration, which unregisters its identifier. -/
  | unregister (waiterId : ℕ) (k : K)
  /-- `take_one` under the registry lock. -/
  | takeOne (k : Option ℕ → K)
  /-- `take_all` under the registry lock. -/
  | takeAll (k : List ℕ → K)
  /-- Signals a waiter object. -/
  | signal (waiter : ℕ) (k : K)
  /-- Reads the poison marker. -/
  | isPoisoned (k : Bool → K)
  /-- Clears the poison marker. -/
  | clearPoison (k : K)
  /-- Returns from the operation, dropping an occupied guard and the Timer future. -/
  | ret (out : Outcome ρ) (k : K)
  /-- Returns to user code that owns the guard, dropping the Timer future only. -/
  | retGuard (out : Outcome ρ) (k : K)
  /-- Unwinds out of the operation: like `ret`, but an occupied guard is dropped while the
  thread panics. -/
  | unwind (k : K)
  /-- Nothing to execute: the thread waits for a choice of its user or of its executor. -/
  | suspend

/-- The report of an executed primitive. -/
inductive Did (σ ρ : Type) where
  | locked
  | contended
  | unlocked
  | slotEmpty
  | checked (v : σ) (answer : Option Bool)
  | didRead (v : σ) (r : Option ρ)
  | wrote (f : σ → σ × Option ρ) (v : σ) (r : Option ρ)
  | sampled (now : ℕ)
  | timerMade (deadline : ℕ) (r : Except TimeError Unit)
  | polled (w : Waker) (r : Poll)
  | registered (r : Option Registration)
  | woke (waiter : ℕ)
  | notified (waiter : ℕ) (b : Bool)
  | unregistered (waiterId : ℕ) (removed : Bool)
  | tookOne (r : Option Registration)
  | tookAll (rs : List Registration)
  | signalled (waiter : ℕ)
  | poisonRead (b : Bool)
  | poisonCleared
  | returned (out : Outcome ρ) (v : σ) (now : ℕ)
  | guardReturned (out : Outcome ρ) (v : σ) (now : ℕ)
  | unwound

/-- The registrations that a report leaves of those in the registry. -/
def Did.left {σ ρ : Type} (d : Did σ ρ) (gs : List Registration) : List Registration :=
  match d with
  | .unregistered i _ => gs.filter fun g => g.waiterId ≠ i
  | .tookOne _ => gs.tail
  | .tookAll _ => []
  | _ => gs

/-- A report leaves only registrations that were there, in their order. -/
lemma Did.left_sublist {σ ρ : Type} (d : Did σ ρ) (gs : List Registration) :
    (d.left gs).Sublist gs := by
  cases d with
  | unregistered => exact List.filter_sublist
  | tookOne => exact List.tail_sublist gs
  | tookAll => exact List.nil_sublist gs
  | _ => exact List.Sublist.refl gs

/-- The registration that a report adds to the registry. -/
def Did.entered {σ ρ : Type} : Did σ ρ → Option Registration
  | .registered g => g
  | _ => none

namespace Mem

variable {σ ρ Tid : Type}

/-- A fresh monitor around a value, with a clock that shows `clock`. -/
def init (poisons : Bool) (value : σ) (clock : ℕ) : Mem σ Tid where
  value := value
  owner := none
  poisons := poisons
  poisoned := false
  registry := .new
  nextWaiter := 0
  signalled := fun _ => false
  clock := clock
  slot := fun _ => false
  future := fun _ => none
  inFlight := []
  handed := []

/-- The registrations in the registry, oldest first. -/
def registrations (m : Mem σ Tid) : List Registration :=
  m.registry.entries.map fun e => ⟨e.1, e.2⟩

/-- A registration that panics registers nothing. -/
lemma register_error_snd {m : Mem σ Tid} (hm : m.registry.WellFormed) {msg : String}
    (hg : (m.registry.register m.nextWaiter).1 = .error msg) :
    (m.registry.register m.nextWaiter).2 = m.registry := by
  by_cases hlt : m.registry.nextWaiterId + 1 < 2 ^ 64
  · rw [WaiterRegistry.register_of_lt hm _ hlt] at hg
    cases hg
  · rw [WaiterRegistry.register_of_not_lt _ hlt]

/-- The registrations have increasing identifiers. -/
lemma registrations_sorted (m : Mem σ Tid) :
    m.registrations.Pairwise fun g g' => g.waiterId < g'.waiterId := by
  rw [registrations, List.pairwise_map]
  exact m.registry.entries_sorted

/-- The waiters of all registrations are what `takeAll` returns. -/
lemma registrations_map_waiter (m : Mem σ Tid) :
    m.registrations.map Registration.waiter = m.registry.takeAll.1 := by
  rw [registrations, List.map_map, WaiterRegistry.takeAll_fst]
  rfl

/-- The waiter of the oldest registration is what `takeOne` returns. -/
lemma head?_registrations_map (m : Mem σ Tid) :
    m.registrations.head?.map Registration.waiter = m.registry.takeOne.1 := by
  rw [registrations, List.head?_map, Option.map_map, WaiterRegistry.takeOne_fst]
  rfl

/-- An identifier is removed exactly if it is registered. -/
lemma unregister_isSome (m : Mem σ Tid) {i : ℕ} :
    (m.registry.unregister i).1.isSome = true ↔ ∃ g ∈ m.registrations, g.waiterId = i := by
  rw [WaiterRegistry.unregister_isSome]
  constructor
  · rintro ⟨w, hw⟩
    exact ⟨⟨i, w⟩, List.mem_map.mpr ⟨(i, w), hw, rfl⟩, rfl⟩
  · rintro ⟨g, hg, rfl⟩
    simp only [registrations, List.mem_map] at hg
    obtain ⟨e, he, rfl⟩ := hg
    exact ⟨e.2, he⟩

variable [DecidableEq Tid]

/-- The memory after a thread drops its guard, if the slot is occupied, and its Timer future. -/
def dropCall (m : Mem σ Tid) (t : Tid) (panicking : Bool) : Mem σ Tid :=
  { m with
    owner := if m.slot t then none else m.owner
    poisoned := m.poisoned || (m.slot t && panicking && m.poisons)
    slot := Function.update m.slot t false
    future := Function.update m.future t none }

/-- The effect of a reported primitive. -/
def effect (m : Mem σ Tid) (t : Tid) : Did σ ρ → Mem σ Tid
  | .locked => { m with owner := some t, slot := Function.update m.slot t true }
  | .unlocked => { m with owner := none, slot := Function.update m.slot t false }
  | .wrote f v _ => { m with value := (f v).1 }
  | .timerMade d (.ok _) => { m with future := Function.update m.future t (some (.at_ d)) }
  | .polled w _ =>
    { m with
      future := Function.update m.future t ((m.future t).map fun f => f.polled w)
      handed := match w with
        | .waiter a => a :: m.handed
        | _ => m.handed }
  | .registered _ =>
    { m with
      registry := (m.registry.register m.nextWaiter).2
      nextWaiter := m.nextWaiter + 1 }
  | .unregistered i _ => { m with registry := (m.registry.unregister i).2 }
  | .tookOne _ => { m with registry := m.registry.takeOne.2 }
  | .tookAll _ => { m with registry := m.registry.takeAll.2 }
  | .signalled a => { m with signalled := Function.update m.signalled a true }
  | .poisonCleared => { m with poisoned := false }
  | .returned _ _ _ => m.dropCall t false
  | .guardReturned _ _ _ => { m with future := Function.update m.future t none }
  | .unwound => m.dropCall t true
  | _ => m

section Fields

variable (m : Mem σ Tid) (t : Tid) (d : Did σ ρ)

/-- Only a mutating closure changes the protected value. -/
lemma effect_value :
    (m.effect t d).value = match d with
      | .wrote f v _ => (f v).1
      | _ => m.value := by
  cases d with
  | timerMade _ r => cases r <;> rfl
  | _ => rfl

/-- The owner of the state lock after a report. -/
lemma effect_owner :
    (m.effect t d).owner = match d with
      | .locked => some t
      | .unlocked => none
      | .returned _ _ _ => if m.slot t then none else m.owner
      | .unwound => if m.slot t then none else m.owner
      | _ => m.owner := by
  cases d with
  | timerMade _ r => cases r <;> rfl
  | _ => rfl

/-- The guard slots after a report. -/
lemma effect_slot :
    (m.effect t d).slot = match d with
      | .locked => Function.update m.slot t true
      | .unlocked => Function.update m.slot t false
      | .returned _ _ _ => Function.update m.slot t false
      | .unwound => Function.update m.slot t false
      | _ => m.slot := by
  cases d with
  | timerMade _ r => cases r <;> rfl
  | _ => rfl

/-- The registry after a report. -/
lemma effect_registry :
    (m.effect t d).registry = match d with
      | .registered _ => (m.registry.register m.nextWaiter).2
      | .unregistered i _ => (m.registry.unregister i).2
      | .tookOne _ => m.registry.takeOne.2
      | .tookAll _ => m.registry.takeAll.2
      | _ => m.registry := by
  cases d with
  | timerMade _ r => cases r <;> rfl
  | _ => rfl

/-- A registration allocates a waiter object. -/
lemma effect_nextWaiter :
    (m.effect t d).nextWaiter = match d with
      | .registered _ => m.nextWaiter + 1
      | _ => m.nextWaiter := by
  cases d with
  | timerMade _ r => cases r <;> rfl
  | _ => rfl

/-- The latches after a report. -/
lemma effect_signalled :
    (m.effect t d).signalled = match d with
      | .signalled a => Function.update m.signalled a true
      | _ => m.signalled := by
  cases d with
  | timerMade _ r => cases r <;> rfl
  | _ => rfl

/-- No primitive moves the clock. -/
@[simp] lemma effect_clock : (m.effect t d).clock = m.clock := by
  cases d with
  | timerMade _ r => cases r <;> rfl
  | _ => rfl

/-- No primitive delivers a wake of the Timer. -/
@[simp] lemma effect_inFlight : (m.effect t d).inFlight = m.inFlight := by
  cases d with
  | timerMade _ r => cases r <;> rfl
  | _ => rfl

/-- The wakers that the Timer was given after a report. -/
lemma effect_handed :
    (m.effect t d).handed = match d with
      | .polled (.waiter a) _ => a :: m.handed
      | _ => m.handed := by
  cases d with
  | timerMade _ r => cases r <;> rfl
  | polled w r => cases w <;> rfl
  | _ => rfl

/-- The Timer futures after a report. -/
lemma effect_future :
    (m.effect t d).future = match d with
      | .timerMade d (.ok _) => Function.update m.future t (some (.at_ d))
      | .polled w _ => Function.update m.future t ((m.future t).map fun f => f.polled w)
      | .returned _ _ _ => Function.update m.future t none
      | .guardReturned _ _ _ => Function.update m.future t none
      | .unwound => Function.update m.future t none
      | _ => m.future := by
  cases d with
  | timerMade _ r => cases r <;> rfl
  | _ => rfl

/-- A report resets no latch. -/
lemma signalled_effect {m : Mem σ Tid} {t : Tid} {d : Did σ ρ} {a : ℕ} (h : m.signalled a = true) :
    (m.effect t d).signalled a = true := by
  rw [m.effect_signalled]
  split
  · rename_i b
    by_cases hab : a = b
    · rw [hab, Function.update_self]
    · rw [Function.update_of_ne hab, h]
  · exact h

/-- A report of another thread keeps the Timer future of a thread. -/
lemma effect_future_ne {m : Mem σ Tid} {t u : Tid} {d : Did σ ρ} (hut : u ≠ t) :
    (m.effect t d).future u = m.future u := by
  rw [m.effect_future]
  cases d with
  | timerMade deadline r =>
    cases r with
    | error e => rfl
    | ok _ => exact Function.update_of_ne hut _ _
  | polled | returned | guardReturned | unwound => exact Function.update_of_ne hut _ _
  | _ => rfl

/-- The registrations after a successful registration. -/
lemma registrations_register {m : Mem σ Tid} (hm : m.registry.WellFormed) {g : Registration}
    (hg : (m.registry.register m.nextWaiter).1 = .ok g.waiterId) (hw : g.waiter = m.nextWaiter) :
    (m.effect t (.registered (some g) : Did σ ρ)).registrations = m.registrations ++ [g] := by
  by_cases hlt : m.registry.nextWaiterId + 1 < 2 ^ 64
  · have hi : m.registry.nextWaiterId = g.waiterId := by
      rw [WaiterRegistry.register_of_lt hm _ hlt] at hg
      exact Except.ok.inj hg
    obtain ⟨i, a⟩ := g
    simp only at hi hw
    subst hi hw
    simp [registrations, effect, WaiterRegistry.entries_register hm _ hlt]
  · rw [WaiterRegistry.register_of_not_lt _ hlt] at hg
    cases hg

/-- The registrations after a report other than a registration. -/
lemma effect_registrations (hd : ∀ g, d ≠ .registered g) :
    (m.effect t d).registrations = d.left m.registrations := by
  cases d with
  | registered g => exact absurd rfl (hd g)
  | unregistered i b =>
    simp only [registrations, effect_registry, WaiterRegistry.entries_unregister, List.filter_map,
      Did.left]
    rfl
  | tookOne e =>
    simp only [registrations, effect_registry, WaiterRegistry.entries_takeOne, List.map_tail,
      Did.left]
  | tookAll es =>
    simp only [registrations, effect_registry, WaiterRegistry.entries_takeAll, List.map_nil,
      Did.left]
  | _ => simp only [registrations, effect_registry, Did.left]

/-- A `take_all` leaves no registration. -/
@[simp] lemma registrations_tookAll (gs : List Registration) :
    (m.effect t (.tookAll gs : Did σ ρ)).registrations = [] :=
  m.effect_registrations t _ (by simp)

end Fields

/-- The reports that a memory admits. -/
def Allows (m : Mem σ Tid) (t : Tid) : Did σ ρ → Prop
  | .locked => m.owner = none
  | .unlocked => m.slot t = true
  | .slotEmpty => m.slot t = false
  | .checked v _ => m.slot t = true ∧ v = m.value
  | .didRead v _ => m.slot t = true ∧ v = m.value
  | .wrote f v r => m.slot t = true ∧ v = m.value ∧ r = (f v).2
  | .sampled now => now = m.clock
  | .polled _ r => ∃ f, m.future t = some f ∧ r = f.poll
  | .registered (some r) =>
    (m.registry.register m.nextWaiter).1 = .ok r.waiterId ∧ r.waiter = m.nextWaiter
  | .registered none => ∃ msg, (m.registry.register m.nextWaiter).1 = .error msg
  | .woke a => m.signalled a = true
  | .notified a b => b = m.signalled a
  | .unregistered i b => b = (m.registry.unregister i).1.isSome
  | .tookOne r => r = m.registrations.head?
  | .tookAll rs => rs = m.registrations
  | .poisonRead b => b = m.poisoned
  | .returned _ v now => v = m.value ∧ now = m.clock
  | .guardReturned _ v now => v = m.value ∧ now = m.clock
  | _ => True

/-- **The registrations after a report**: those it leaves, and behind them the one it adds. -/
lemma registrations_effect {m : Mem σ Tid} {t : Tid} {d : Did σ ρ} (hm : m.registry.WellFormed)
    (ha : m.Allows t d) :
    (m.effect t d).registrations = d.left m.registrations ++ d.entered.toList := by
  cases d with
  | registered g =>
    cases g with
    | none =>
      obtain ⟨msg, hmsg⟩ := ha
      simp [registrations, effect_registry, register_error_snd hm hmsg, Did.left, Did.entered]
    | some g => exact m.registrations_register t hm ha.1 ha.2
  | _ =>
    rw [m.effect_registrations t _ (by simp)]
    exact (List.append_nil _).symm

/-- A report that registers nothing leaves no registration where there was none. -/
lemma registrations_ne_nil_of_effect {m : Mem σ Tid} {t : Tid} {d : Did σ ρ}
    (hm : m.registry.WellFormed) (ha : m.Allows t d) (hd : d.entered = none)
    (hne : (m.effect t d).registrations ≠ []) : m.registrations ≠ [] := by
  intro hnil
  refine hne ?_
  have hleft := d.left_sublist m.registrations
  rw [hnil] at hleft
  rw [registrations_effect hm ha, hnil, List.sublist_nil.mp hleft, hd]
  rfl

end Mem

variable {σ ρ K Tid : Type}

/-- `std::sync::LockResult`: the error of a poisoned lock carries the guard. -/
inductive LockResult (G : Type) where
  | ok (guard : G)
  | poisoned (guard : G)

/-- `recover` of `internal/sync.rs`: the guard, also after a panic. -/
def recover {G : Type} : LockResult G → G
  | .ok guard => guard
  | .poisoned guard => guard

/-- `state.lock()`: it blocks while the mutex is held; otherwise it returns the guard, inside an error
if the marker is set. -/
def Mem.lockState {G : Type} (m : Mem σ Tid) (guard : G) : Option (LockResult G) :=
  if m.owner.isNone then
    if m.poisoned then some (.poisoned guard) else some (.ok guard)
  else none

/-- **`recover(state.lock())` waits for the owner and for nothing else**: the marker has no influence. -/
@[simp] lemma Mem.recover_lockState {G : Type} (m : Mem σ Tid) (guard : G) :
    (m.lockState guard).map recover = if m.owner.isNone then some guard else none := by
  unfold Mem.lockState
  split
  · split <;> rfl
  · rfl

/-- Executes a primitive: its report and where to continue, or `none` if the thread has to wait.
The outside world decides by `fault` whether the Timer accepts a registration, and whether the
queue of an asynchronous mutex that is free reserves it for somebody else. -/
def Cmd.fire (m : Mem σ Tid) (t : Tid) (fault : Option TimeError) :
    Cmd σ ρ K → Option (Did σ ρ × K)
  | .lock k =>
    -- the thread goes on with the guard that it recovers
    (m.lockState (.locked, k)).map recover
  | .tryLock k =>
    if m.owner.isNone && fault.isNone then some (.locked, k true) else some (.contended, k false)
  | .releaseGuard k =>
    if m.slot t then some (.unlocked, k true) else some (.slotEmpty, k false)
  | .check q k =>
    if m.slot t then some (.checked m.value (q m.value), k (q m.value))
    else some (.slotEmpty, k none)
  | .read f k =>
    if m.slot t then some (.didRead m.value (f m.value), k (f m.value))
    else some (.slotEmpty, k none)
  | .write f k =>
    if m.slot t then some (.wrote f m.value (f m.value).2, k (f m.value).2)
    else some (.slotEmpty, k none)
  | .now k => some (.sampled m.clock, k m.clock)
  | .timerAt d k =>
    match fault with
    | none => some (.timerMade d (.ok ()), k (.ok ()))
    | some e => some (.timerMade d (.error e), k (.error e))
  | .pollTimer w k => (m.future t).map fun f => (.polled w f.poll, k f.poll)
  | .register k =>
    match (m.registry.register m.nextWaiter).1 with
    | .ok i => some (.registered (some ⟨i, m.nextWaiter⟩), k (some ⟨i, m.nextWaiter⟩))
    | .error _ => some (.registered none, k none)
  | .park a k => if m.signalled a then some (.woke a, k) else none
  | .pollNotified a k => some (.notified a (m.signalled a), k (m.signalled a))
  | .unregister i k => some (.unregistered i (m.registry.unregister i).1.isSome, k)
  | .takeOne k => some (.tookOne m.registrations.head?, k m.registry.takeOne.1)
  | .takeAll k => some (.tookAll m.registrations, k m.registry.takeAll.1)
  | .signal a k => some (.signalled a, k)
  | .isPoisoned k => some (.poisonRead m.poisoned, k m.poisoned)
  | .clearPoison k => some (.poisonCleared, k)
  | .ret out k => some (.returned out m.value m.clock, k)
  | .retGuard out k => some (.guardReturned out m.value m.clock, k)
  | .unwind k => some (.unwound, k)
  | .suspend => none

/-- **A report describes the memory it was made in.** -/
lemma Cmd.fire_allows {m : Mem σ Tid} {t : Tid} {fault : Option TimeError} {c : Cmd σ ρ K}
    {d : Did σ ρ} {k : K} (h : c.fire m t fault = some (d, k)) : m.Allows t d := by
  cases c with
  | lock | tryLock | releaseGuard | check | read | write | park =>
    simp only [fire, Mem.recover_lockState] at h
    split at h <;> simp_all [Mem.Allows] <;> obtain ⟨rfl, -⟩ := h <;> simp_all
  | register =>
    simp only [fire] at h
    split at h <;> simp only [Option.some.injEq, Prod.mk.injEq] at h <;> obtain ⟨rfl, -⟩ := h
    · exact ⟨by assumption, rfl⟩
    · exact ⟨_, by assumption⟩
  | timerAt =>
    simp only [fire] at h
    split at h <;> simp only [Option.some.injEq, Prod.mk.injEq] at h <;> obtain ⟨rfl, -⟩ := h <;>
      trivial
  | pollTimer w k =>
    simp only [fire, Option.map_eq_some_iff, Prod.mk.injEq] at h
    obtain ⟨f, hf, rfl, -⟩ := h
    exact ⟨f, hf, rfl⟩
  | suspend => simp [fire] at h
  | _ =>
    simp only [fire, Option.some.injEq, Prod.mk.injEq] at h
    obtain ⟨rfl, -⟩ := h
    simp [Mem.Allows]

/-- What a primitive may report and where it then continues, whatever the memory: the panic on
an empty guard slot is left out, as no typed program reaches it. -/
inductive Cmd.Reports : Cmd σ ρ K → Did σ ρ → K → Prop
  | lock (k : K) : Reports (.lock k) .locked k
  | tryLock (k : Bool → K) : Reports (.tryLock k) .locked (k true)
  | contended (k : Bool → K) : Reports (.tryLock k) .contended (k false)
  | releaseGuard (k : Bool → K) : Reports (.releaseGuard k) .unlocked (k true)
  | check (q : σ → Option Bool) (k : Option Bool → K) (v : σ) :
      Reports (.check q k) (.checked v (q v)) (k (q v))
  | read (f : σ → Option ρ) (k : Option ρ → K) (v : σ) :
      Reports (.read f k) (.didRead v (f v)) (k (f v))
  | write (f : σ → σ × Option ρ) (k : Option ρ → K) (v : σ) :
      Reports (.write f k) (.wrote f v (f v).2) (k (f v).2)
  | now (k : ℕ → K) (n : ℕ) : Reports (.now k) (.sampled n) (k n)
  | timerAt (deadline : ℕ) (k : Except TimeError Unit → K) (r : Except TimeError Unit) :
      Reports (.timerAt deadline k) (.timerMade deadline r) (k r)
  | pollTimer (w : Waker) (k : Poll → K) (r : Poll) :
      Reports (.pollTimer w k) (.polled w r) (k r)
  | register (k : Option Registration → K) (g : Option Registration) :
      Reports (.register k) (.registered g) (k g)
  | park (a : ℕ) (k : K) : Reports (.park a k) (.woke a) k
  | pollNotified (a : ℕ) (k : Bool → K) (b : Bool) :
      Reports (.pollNotified a k) (.notified a b) (k b)
  | unregister (i : ℕ) (k : K) (b : Bool) : Reports (.unregister i k) (.unregistered i b) k
  | takeOne (k : Option ℕ → K) (g : Option Registration) :
      Reports (.takeOne k) (.tookOne g) (k (g.map Registration.waiter))
  | takeAll (k : List ℕ → K) (gs : List Registration) :
      Reports (.takeAll k) (.tookAll gs) (k (gs.map Registration.waiter))
  | signal (a : ℕ) (k : K) : Reports (.signal a k) (.signalled a) k
  | isPoisoned (k : Bool → K) (b : Bool) : Reports (.isPoisoned k) (.poisonRead b) (k b)
  | clearPoison (k : K) : Reports (.clearPoison k) .poisonCleared k
  | ret (out : Outcome ρ) (k : K) (v : σ) (now : ℕ) :
      Reports (.ret out k) (.returned out v now) k
  | retGuard (out : Outcome ρ) (k : K) (v : σ) (now : ℕ) :
      Reports (.retGuard out k) (.guardReturned out v now) k
  | unwind (k : K) : Reports (.unwind k) .unwound k

/-- A primitive that finds the guard slot empty is one that needs the guard. -/
lemma Cmd.fire_slotEmpty {m : Mem σ Tid} {t : Tid} {fault : Option TimeError} {c : Cmd σ ρ K}
    {k : K} (h : c.fire m t fault = some (.slotEmpty, k)) :
    m.slot t = false ∧
      ((∃ k', c.Reports .unlocked k') ∨ (∃ v a k', c.Reports (.checked v a) k') ∨
        (∃ v r k', c.Reports (.didRead v r) k') ∨ ∃ f v r k', c.Reports (.wrote f v r) k') := by
  cases c with
  | releaseGuard k =>
    simp only [fire] at h
    split at h
    · cases h
    · exact ⟨by simp_all, .inl ⟨_, .releaseGuard k⟩⟩
  | check q k =>
    simp only [fire] at h
    split at h
    · cases h
    · exact ⟨by simp_all, .inr (.inl ⟨_, _, _, .check q k m.value⟩)⟩
  | read f k =>
    simp only [fire] at h
    split at h
    · cases h
    · exact ⟨by simp_all, .inr (.inr (.inl ⟨_, _, _, .read f k m.value⟩))⟩
  | write f k =>
    simp only [fire] at h
    split at h
    · cases h
    · exact ⟨by simp_all, .inr (.inr (.inr ⟨_, _, _, _, .write f k m.value⟩))⟩
  | lock | tryLock | timerAt | register | park =>
    simp only [fire, Mem.recover_lockState] at h
    split at h <;> cases h
  | pollTimer => simp [fire] at h
  | _ => cases h

/-- **A primitive reports what it may report**, unless it finds the guard slot empty. -/
lemma Cmd.fire_reports {m : Mem σ Tid} {t : Tid} {fault : Option TimeError} {c : Cmd σ ρ K}
    {d : Did σ ρ} {k : K} (h : c.fire m t fault = some (d, k)) (hd : d ≠ .slotEmpty) :
    c.Reports d k := by
  cases c with
  | lock | park | tryLock | timerAt | register | releaseGuard | check | read | write =>
    simp only [fire, Mem.recover_lockState] at h
    split at h <;> cases h <;> first | constructor | exact absurd rfl hd
  | pollTimer =>
    simp only [fire, Option.map_eq_some_iff, Prod.mk.injEq] at h
    obtain ⟨f, -, rfl, rfl⟩ := h
    constructor
  | takeOne k =>
    simp only [fire, ← Mem.head?_registrations_map, Option.some.injEq, Prod.mk.injEq] at h
    obtain ⟨rfl, rfl⟩ := h
    constructor
  | takeAll =>
    simp only [fire, ← Mem.registrations_map_waiter, Option.some.injEq, Prod.mk.injEq] at h
    obtain ⟨rfl, rfl⟩ := h
    constructor
  | suspend => cases h
  | _ =>
    cases h
    constructor

/-! ## The Timer -/

/-- What the Timer and its clock do on their own. -/
inductive TimerEvent (Tid : Type) where
  /-- Time passes. -/
  | tick (d : ℕ)
  /-- The Timer future of a thread's call completes. -/
  | complete (t : Tid) (r : Except TimeError Unit)
  /-- A taken waker is woken. -/
  | wake (waiter : ℕ)
  /-- A waker that the Timer was given at some time is woken for no reason. -/
  | spurious (waiter : ℕ)

/-- The report of a Timer event. -/
inductive TimerDid (Tid : Type) where
  | ticked (d : ℕ)
  | completed (t : Tid) (deadline now : ℕ) (r : Except TimeError Unit)
  | timerWoke (waiter : ℕ)
  | spuriouslyWoke (waiter : ℕ)

namespace Mem

variable [DecidableEq Tid]

/-- The memory after the future of `t` completed: a stored waker of a waiter object is taken. -/
def complete (m : Mem σ Tid) (t : Tid) (f : TimerFuture) (r : Except TimeError Unit) :
    Mem σ Tid :=
  { m with
    future := Function.update m.future t (some (f.complete r))
    inFlight := match f.waker with
      | some (.waiter a) => a :: m.inFlight
      | _ => m.inFlight }

/-- Executes a Timer event. -/
def timer (m : Mem σ Tid) : TimerEvent Tid → Option (Mem σ Tid × TimerDid Tid)
  | .tick d => some ({ m with clock := m.clock + d }, .ticked d)
  | .complete t r =>
    match m.future t with
    | none => none
    | some f =>
      if f.result.isSome then none
      else some (m.complete t f r, .completed t f.deadline m.clock r)
  | .wake a =>
    if a ∈ m.inFlight then
      some ({ m with
        signalled := Function.update m.signalled a true
        inFlight := m.inFlight.erase a }, .timerWoke a)
    else none
  | .spurious a =>
    if a ∈ m.handed then
      some ({ m with signalled := Function.update m.signalled a true }, .spuriouslyWoke a)
    else none

/-- **What a Timer event can do.** -/
lemma timer_eq_some {m m' : Mem σ Tid} {e : TimerEvent Tid} {b : TimerDid Tid}
    (h : m.timer e = some (m', b)) :
    (∃ d, m' = { m with clock := m.clock + d } ∧ b = .ticked d) ∨
    (∃ t f r, m.future t = some f ∧ f.result = none ∧ m' = m.complete t f r ∧
      b = .completed t f.deadline m.clock r) ∨
    (∃ a, a ∈ m.inFlight ∧
      m' = { m with
        signalled := Function.update m.signalled a true, inFlight := m.inFlight.erase a } ∧
      b = .timerWoke a) ∨
    (∃ a, a ∈ m.handed ∧ m' = { m with signalled := Function.update m.signalled a true } ∧
      b = .spuriouslyWoke a) := by
  cases e with
  | tick d =>
    obtain ⟨rfl, rfl⟩ : _ ∧ _ := by simpa [timer, eq_comm] using h
    exact .inl ⟨d, rfl, rfl⟩
  | complete t r =>
    simp only [timer] at h
    split at h
    · cases h
    · rename_i f hf
      split at h
      · cases h
      · rename_i hr
        obtain ⟨rfl, rfl⟩ : _ ∧ _ := by simpa [eq_comm] using h
        exact .inr (.inl ⟨t, f, r, hf, by simpa using hr, rfl, rfl⟩)
  | wake a =>
    simp only [timer] at h
    split at h
    · rename_i ha
      obtain ⟨rfl, rfl⟩ : _ ∧ _ := by simpa [eq_comm] using h
      exact .inr (.inr (.inl ⟨a, ha, rfl, rfl⟩))
    · cases h
  | spurious a =>
    simp only [timer] at h
    split at h
    · rename_i ha
      obtain ⟨rfl, rfl⟩ : _ ∧ _ := by simpa [eq_comm] using h
      exact .inr (.inr (.inr ⟨a, ha, rfl, rfl⟩))
    · cases h

/-- What a Timer event leaves alone. -/
structure TimerFrame (m m' : Mem σ Tid) : Prop where
  value : m'.value = m.value
  owner : m'.owner = m.owner
  slot : m'.slot = m.slot
  registry : m'.registry = m.registry
  nextWaiter : m'.nextWaiter = m.nextWaiter
  handed : m'.handed = m.handed
  clock : m.clock ≤ m'.clock

/-- A Timer event touches only the clock, the futures and the latches. -/
lemma timer_frame {m m' : Mem σ Tid} {e : TimerEvent Tid} {b : TimerDid Tid}
    (h : m.timer e = some (m', b)) : TimerFrame m m' := by
  rcases timer_eq_some h with ⟨d, rfl, -⟩ | ⟨t, f, r, -, -, rfl, -⟩ | ⟨a, -, rfl, -⟩ |
    ⟨a, -, rfl, -⟩
  · exact ⟨rfl, rfl, rfl, rfl, rfl, rfl, Nat.le_add_right _ _⟩
  all_goals exact ⟨rfl, rfl, rfl, rfl, rfl, rfl, le_rfl⟩

/-- The Timer resets no latch. -/
lemma timer_signalled {m m' : Mem σ Tid} {e : TimerEvent Tid} {b : TimerDid Tid}
    (h : m.timer e = some (m', b)) {a : ℕ} (ha : m.signalled a = true) : m'.signalled a = true := by
  rcases timer_eq_some h with ⟨d, rfl, -⟩ | ⟨t, f, r, -, -, rfl, -⟩ | ⟨a', -, rfl, -⟩ |
    ⟨a', -, rfl, -⟩
  · exact ha
  · exact ha
  all_goals
    by_cases haa : a = a'
    · simp [haa]
    · simpa only [Function.update_of_ne haa] using ha

end Mem

end QubitLock
