import QubitLock.Blocking.Program
import QubitLock.Monitor.Expiry

set_option relaxedAutoImplicit false
set_option autoImplicit false

/-!
# The credit of the blocking timed waits

What a timed wait of a blocking monitor can still do at each program counter once its Timer future
is complete: how often it polls the future, releases the state lock and evaluates its predicate.

## Main definitions

* `Blocking.credit` — the credit of each program counter.
* `Blocking.credits` — every primitive is paid from it.
-/

namespace QubitLock.Blocking

variable {σ ρ : Type}

/-- Polls, releases and evaluations that are left at each program counter where a Timer future may
be alive, if it is complete. -/
def credit : Pc σ ρ → Option (ℕ × ℕ × ℕ)
  | .earlyPoll _ => some (1, 0, 0)
  | .pollNoWaiter _ | .pollRegistered _ _ | .reacquireTimed _ _ | .finalPoll _ _ => some (1, 0, 1)
  | .register timed _ | .park timed _ _ | .dropRegistration timed _ _ =>
    if timed then some (1, 0, 1) else none
  | .release timed _ _ => if timed then some (1, 1, 1) else none
  | .dropEarly _ _ _ => some (0, 0, 1)
  -- a wakeup is followed by one more check and the poll of the next round
  | .recheck _ _ status => if status.isTimedOut then some (0, 0, 1) else some (1, 0, 2)
  | .act _ _ | .finish _ | .guardDone _ | .unwindRegistration _ _ | .unwindGuard |
    .guardPanicked => some (0, 0, 0)
  | _ => none

/-- A guard wait that returns without a wakeup leaves at most one check. -/
lemma credit_resumeTimed (k : Caller σ ρ) (r : Except TimeError Unit) :
    ∃ b, credit (resumeTimed k (r.map fun _ => .timedOut)) = some b ∧ b ≤ (0, 0, 1) := by
  cases k <;> cases r <;> exact ⟨_, rfl, by decide⟩

/-- A guard wait that was woken leaves a credit. -/
lemma credit_resumeTimed_woken (k : Caller σ ρ) :
    ∃ b, credit (resumeTimed k (.ok .woken)) = some b := by
  cases k <;> exact ⟨_, rfl⟩

lemma credit_panicked (k : Caller σ ρ) : credit (panicked k) = some (0, 0, 0) := by
  cases k <;> rfl

/-- A poll that ends a guard wait leaves at most one check. -/
lemma pays_ready {k : Caller σ ρ} {wk : Waker} {r : Except TimeError Unit} :
    ∃ b, credit (resumeTimed k (r.map fun _ => .timedOut)) = some b ∧
      (.polled wk (.ready r) : Did σ ρ).price + b ≤ (1, 0, 1) := by
  obtain ⟨b, hb, hle⟩ := credit_resumeTimed k r
  refine ⟨b, hb, ?_⟩
  calc (1, 0, 0) + b ≤ (1, 0, 0) + (0, 0, 1) := add_le_add_right hle _
    _ = (1, 0, 1) := rfl

/-- **Every primitive of the blocking program is paid from the credit.**

**Proof sketch.** One case for each program counter: the credit of the program counter that a primitive
leads to is smaller by at least its price. Only a poll that is still pending costs nothing and may lead
back. -/
lemma credit_pays {maxInstant : ℕ} {p p' : Pc σ ρ} {b : ℕ × ℕ × ℕ} {d : Did σ ρ}
    (hb : credit p = some b) (h : (code maxInstant p).Reports d p') (hdrop : d.dropsTimer = false) :
    ∃ b', credit p' = some b' ∧ ((∀ w, d ≠ .polled w .pending) → d.price + b' ≤ b) := by
  cases p with
  | earlyPoll w =>
    cases hb
    cases h with
    | pollTimer _ _ r =>
      rcases r with _ | _ | _
      · exact ⟨_, rfl, fun hne => absurd rfl (hne _)⟩
      all_goals exact ⟨_, rfl, fun _ => by simp [Did.price]⟩
  | pollNoWaiter k =>
    cases hb
    cases h with
    | pollTimer _ _ r =>
      cases r with
      | pending => exact ⟨_, rfl, fun hne => absurd rfl (hne _)⟩
      | ready r =>
        obtain ⟨b', hb', hle⟩ := pays_ready (k := k) (r := r)
        exact ⟨b', hb', fun _ => hle⟩
  | register timed k =>
    cases timed <;> cases hb
    cases h with
    | register _ g =>
      cases g with
      | none => exact ⟨_, credit_panicked k, fun _ => by simp [Did.price]⟩
      | some g => exact ⟨_, rfl, fun _ => by simp [Did.price]⟩
  | pollRegistered k g =>
    cases hb
    cases h with
    | pollTimer _ _ r =>
      cases r with
      | pending => exact ⟨_, rfl, fun hne => absurd rfl (hne _)⟩
      | ready r => exact ⟨_, rfl, fun _ => by simp [Did.price]⟩
  | dropEarly k g r =>
    cases hb
    cases h
    obtain ⟨b', hb', hle⟩ := credit_resumeTimed k r
    exact ⟨b', hb', fun _ => (zero_add b').trans_le hle⟩
  | release timed k g =>
    cases timed <;> cases hb
    cases h
    exact ⟨_, rfl, fun _ => by simp [Did.price]⟩
  | park timed k g | dropRegistration timed k g =>
    cases timed <;> cases hb
    cases h
    exact ⟨_, rfl, fun _ => by simp [Did.price]⟩
  | reacquireTimed k a =>
    cases hb
    cases h
    exact ⟨_, rfl, fun _ => by simp [Did.price]⟩
  | finalPoll k a =>
    cases hb
    cases h with
    | pollTimer _ _ r =>
      cases r with
      | pending =>
        obtain ⟨b', hb'⟩ := credit_resumeTimed_woken k
        exact ⟨b', hb', fun hne => absurd rfl (hne _)⟩
      | ready r =>
        obtain ⟨b', hb', hle⟩ := pays_ready (k := k) (r := r)
        exact ⟨b', hb', fun _ => hle⟩
  | recheck w n status =>
    cases h with
    | check _ _ v =>
      cases status <;> cases hb <;> rcases w.waiting n v with _ | _ | _ <;>
        exact ⟨_, rfl, fun _ => by simp [Did.price]⟩
  | act w timed =>
    cases hb
    cases h with
    | write _ _ v => cases (w.f v).2 <;> exact ⟨_, rfl, fun _ => by simp [Did.price]⟩
  | unwindRegistration k g =>
    cases hb
    cases h
    exact ⟨_, credit_panicked k, fun _ => by simp [Did.price]⟩
  | finish | guardDone | unwindGuard | guardPanicked =>
    cases h
    cases hdrop
  | _ => cases hb

/-- **The credit of the blocking program.** -/
def credits (maxInstant : ℕ) :
    (program maxInstant : Program σ ρ (Pc σ ρ) (Choice σ ρ)).Credit where
  credit := credit
  bound := by
    intro p b hb
    cases p with
    | register timed | release timed | park timed | dropRegistration timed =>
      cases timed <;> cases hb
      decide
    | recheck w n status => cases status <;> cases hb <;> decide
    | _ => cases hb <;> decide
  made := by
    intro p deadline p' h
    cases p with
    | timerAt deadline k early =>
      cases h
      cases k <;> cases early <;> exact ⟨_, rfl⟩
    | notify n out => cases n <;> cases h
    | _ => cases h
  once := by
    intro p b deadline r p' hb h
    cases p with
    | timerAt => cases hb
    | notify n out => cases n <;> cases h
    | _ => cases h
  pays := credit_pays
  jump := by
    intro p b x p' hb hj
    cases p <;> cases x <;> cases hj <;> cases hb

end QubitLock.Blocking
