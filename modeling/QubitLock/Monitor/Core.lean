import QubitLock.Monitor.Resources

set_option relaxedAutoImplicit false
set_option autoImplicit false

/-!
# The core of a monitor

What two monitors share that wait in different ways: everything but the latches and the Timer futures.
Most reports are decided by the core and change the core alone; the others only tell how a thread
waits. So two programs over memories with the same core can make the same reports, and keep the cores
the same, as long as they leave the waiting aside.

## Main definitions

* `Did.isWaiting` — the report tells how its thread waits.
* `Mem.core` — the memory without latches and Timer futures.

## Main results

* `Cmd.fire_of_reports` — a primitive makes every report that its memory allows.
* `Mem.allows_of_core`, `Mem.core_effect_congr` — what the core decides, and how it changes.
-/

namespace QubitLock

variable {σ ρ K Tid : Type}

/-- The report tells how its thread waits for the lock, for a signal or for the Timer. -/
def Did.isWaiting : Did σ ρ → Bool
  | .contended | .polled _ _ | .woke _ | .notified _ _ => true
  | _ => false

/-- **A primitive makes every report that its memory allows**, for some decision of the outside
world. -/
lemma Cmd.fire_of_reports {m : Mem σ Tid} {t : Tid} {c : Cmd σ ρ K} {d : Did σ ρ} {k : K}
    (h : c.Reports d k) (ha : m.Allows t d) (hd : d ≠ .contended) :
    ∃ fault, c.fire m t fault = some (d, k) := by
  cases h with
  | contended => exact absurd rfl hd
  | lock => exact ⟨none, by simp [fire, show m.owner = none from ha]⟩
  | tryLock => exact ⟨none, by simp [fire, show m.owner = none from ha]⟩
  | releaseGuard => exact ⟨none, by simp [fire, show m.slot t = true from ha]⟩
  | check q k v =>
    obtain ⟨hslot, rfl⟩ := ha
    exact ⟨none, by simp [fire, hslot]⟩
  | read f k v =>
    obtain ⟨hslot, rfl⟩ := ha
    exact ⟨none, by simp [fire, hslot]⟩
  | write f k v =>
    obtain ⟨hslot, rfl, -⟩ := ha
    exact ⟨none, by simp [fire, hslot]⟩
  | now k n =>
    obtain rfl : n = m.clock := ha
    exact ⟨none, rfl⟩
  | timerAt deadline k r =>
    cases r with
    | ok _ => exact ⟨none, rfl⟩
    | error e => exact ⟨some e, rfl⟩
  | pollTimer w k r =>
    obtain ⟨f, hf, rfl⟩ := ha
    exact ⟨none, by simp [fire, hf]⟩
  | register k g =>
    cases g with
    | some g =>
      obtain ⟨hid, hwaiter⟩ := ha
      obtain ⟨i, a⟩ := g
      obtain rfl : a = m.nextWaiter := hwaiter
      exact ⟨none, by simp only [fire, hid]⟩
    | none =>
      obtain ⟨msg, hmsg⟩ := ha
      exact ⟨none, by simp only [fire, hmsg]⟩
  | park a => exact ⟨none, by simp [fire, show m.signalled a = true from ha]⟩
  | pollNotified a k b =>
    obtain rfl : b = m.signalled a := ha
    exact ⟨none, rfl⟩
  | unregister i k b =>
    obtain rfl : b = (m.registry.unregister i).1.isSome := ha
    exact ⟨none, rfl⟩
  | takeOne k g =>
    obtain rfl : g = m.registrations.head? := ha
    exact ⟨none, by simp only [fire, m.head?_registrations_map]⟩
  | takeAll k gs =>
    obtain rfl : gs = m.registrations := ha
    exact ⟨none, by simp only [fire, m.registrations_map_waiter]⟩
  | isPoisoned k b =>
    obtain rfl : b = m.poisoned := ha
    exact ⟨none, rfl⟩
  | ret out k v now =>
    obtain ⟨rfl, rfl⟩ : v = m.value ∧ now = m.clock := ha
    exact ⟨none, rfl⟩
  | retGuard out k v now =>
    obtain ⟨rfl, rfl⟩ : v = m.value ∧ now = m.clock := ha
    exact ⟨none, rfl⟩
  | signal | clearPoison | unwind => exact ⟨none, rfl⟩

namespace Mem

/-- The memory without latches and Timer futures. -/
def core (m : Mem σ Tid) : Mem σ Tid :=
  { m with
    signalled := fun _ => false
    future := fun _ => none
    inFlight := []
    handed := [] }

/-- **The core decides every report but those that tell how a thread waits.** -/
lemma allows_of_core {m n : Mem σ Tid} (h : m.core = n.core) {t : Tid} {d : Did σ ρ}
    (hd : d.isWaiting = false) (ha : m.Allows t d) : n.Allows t d := by
  have hcore : ∀ m : Mem σ Tid, m.Allows t d ↔ m.core.Allows t d := by
    intro m
    cases d with
    | registered g => cases g <;> rfl
    | polled | woke | notified => cases hd
    | _ => rfl
  rw [hcore, ← h, ← hcore]
  exact ha

variable [DecidableEq Tid]

/-- A report changes the core alone. -/
lemma core_effect (m : Mem σ Tid) (t : Tid) (d : Did σ ρ) :
    (m.effect t d).core = (m.core.effect t d).core := by
  cases d with
  | timerMade deadline r => cases r <;> rfl
  | _ => rfl

/-- **A report keeps equal cores equal.** -/
lemma core_effect_congr {m n : Mem σ Tid} (h : m.core = n.core) (t : Tid) (d : Did σ ρ) :
    (m.effect t d).core = (n.effect t d).core := by
  rw [core_effect, h, ← core_effect]

/-- A report that tells how a thread waits does not touch the core. -/
lemma core_effect_of_isWaiting (m : Mem σ Tid) (t : Tid) {d : Did σ ρ} (hd : d.isWaiting = true) :
    (m.effect t d).core = m.core := by
  cases d with
  | contended | polled | woke | notified => rfl
  | _ => cases hd

end Mem

end QubitLock
