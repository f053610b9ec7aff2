import QubitLock.Monitor.Expiry
import QubitLock.Tokio.Program

set_option relaxedAutoImplicit false
set_option autoImplicit false

/-!
# The credit of the Tokio timed waits

What a timed wait of a Tokio monitor can still do at each program counter once its Timer future is
complete. The wait polls its deadline before the notification, and once more with the reacquired
lock if the notification came first; it releases the lock before both polls.

## Main definitions

* `Tokio.credit` — the credit of each program counter.
* `Tokio.credits` — every primitive is paid from it.
-/

namespace QubitLock.Tokio

variable {σ ρ : Type}

/-- Polls, releases and evaluations that are left with the status of a suspension: a notification
that came first is followed by a poll of the deadline. -/
def statusCredit : Option (Except TimeError WaitTimeoutStatus) → Option (ℕ × ℕ × ℕ)
  | none => none
  | some (.ok .woken) => some (1, 0, 1)
  | some (.ok .timedOut) | some (.error _) => some (0, 0, 1)

/-- Polls, releases and evaluations that are left at each program counter where a Timer future may
be alive, if it is complete. -/
def credit : Pc σ ρ → Option (ℕ × ℕ × ℕ)
  | .earlyPoll _ => some (1, 0, 0)
  | .register timed _ _ | .dropGuard timed _ _ _ => if timed then some (1, 1, 1) else none
  | .pollDeadline _ _ _ | .deadlineReached _ _ => some (1, 0, 1)
  | .pollNotified timed _ _ _ | .waitPending timed _ _ _ => if timed then some (1, 0, 1) else none
  | .dropRegistration _ _ _ status | .relock _ _ status | .relockPending _ _ status =>
    statusCredit status
  -- a check that still blocks is followed by one more suspension
  | .recheck _ _ reached => if reached then some (0, 0, 1) else some (1, 1, 2)
  | .act _ _ | .finish _ | .cancelRegistration _ _ | .cancelled _ | .unwindGuard => some (0, 0, 0)
  | _ => none

/-- The reacquired lock costs nothing. -/
lemma credit_relocked {w : Condition σ ρ} {n : ℕ}
    {status : Option (Except TimeError WaitTimeoutStatus)} {b : ℕ × ℕ × ℕ}
    (hb : statusCredit status = some b) : ∃ b', credit (relocked w n status) = some b' ∧ b' ≤ b := by
  rcases status with _ | _ | status
  · cases hb
  · cases hb
    exact ⟨_, rfl, by decide⟩
  · cases status <;> cases hb <;> exact ⟨_, rfl, le_rfl⟩

/-- **Every primitive of the Tokio program is paid from the credit.**

**Proof sketch.** By cases on the place: the credit of each place is the price of its primitive and the
credit of the place that follows. A poll that finds the future pending pays nothing, because it is not
counted. -/
lemma credit_pays {maxInstant : ℕ} {p p' : Pc σ ρ} {b : ℕ × ℕ × ℕ} {d : Did σ ρ}
    (hb : credit p = some b) (h : (code maxInstant p).Reports d p') (hdrop : d.dropsTimer = false) :
    ∃ b', credit p' = some b' ∧ ((∀ w, d ≠ .polled w .pending) → d.price + b' ≤ b) := by
  cases p with
  | earlyPoll w | deadlineReached w n =>
    cases hb
    cases h with
    | pollTimer _ _ r =>
      rcases r with _ | _ | _
      · exact ⟨_, rfl, fun hne => absurd rfl (hne _)⟩
      all_goals exact ⟨_, rfl, fun _ => by simp [Did.price]⟩
  | register timed w n =>
    cases timed <;> cases hb
    cases h with
    | register _ g => cases g <;> exact ⟨_, rfl, fun _ => by simp [Did.price]⟩
  | dropGuard timed w n g =>
    cases timed <;> cases hb
    cases h
    exact ⟨_, rfl, fun _ => by simp [Did.price]⟩
  | pollDeadline w n g =>
    cases hb
    cases h with
    | pollTimer _ _ r =>
      rcases r with _ | _ | _
      · exact ⟨_, rfl, fun hne => absurd rfl (hne _)⟩
      all_goals exact ⟨_, rfl, fun _ => by simp [Did.price]⟩
  | pollNotified timed w n g =>
    cases timed <;> cases hb
    cases h with
    | pollNotified _ _ b => cases b <;> exact ⟨_, rfl, fun _ => by simp [Did.price]⟩
  | dropRegistration w n g status =>
    cases h
    exact ⟨b, hb, fun _ => (zero_add b).le⟩
  | relock w n status =>
    cases h with
    | tryLock =>
      obtain ⟨b', hb', hle⟩ := credit_relocked (w := w) (n := n) hb
      exact ⟨b', hb', fun _ => (zero_add b').trans_le hle⟩
    | contended => exact ⟨b, hb, fun _ => (zero_add b).le⟩
  | recheck w n reached =>
    cases h with
    | check _ _ v =>
      cases reached <;> cases hb <;> rcases w.waiting n v with _ | _ | _ <;>
        exact ⟨_, rfl, fun _ => by simp [Did.price]⟩
  | act w timed =>
    cases hb
    cases h with
    | write _ _ v => cases (w.f v).2 <;> exact ⟨_, rfl, fun _ => by simp [Did.price]⟩
  | cancelRegistration timed g =>
    cases hb
    cases h
    exact ⟨_, rfl, fun _ => by simp [Did.price]⟩
  | waitPending | relockPending => cases h
  | finish | cancelled | unwindGuard =>
    cases h
    cases hdrop
  | _ => cases hb

/-- One poll, one release and two evaluations are enough with every status. -/
lemma statusCredit_le {status : Option (Except TimeError WaitTimeoutStatus)} {b : ℕ × ℕ × ℕ}
    (hb : statusCredit status = some b) : b ≤ (1, 1, 2) := by
  rcases status with _ | _ | status
  · cases hb
  · cases hb
    decide
  · cases status <;> cases hb <;> decide

/-- **The credit of the Tokio program.** -/
def credits (maxInstant : ℕ) :
    (program maxInstant : Program σ ρ (Pc σ ρ) (Choice σ ρ)).Credit where
  credit := credit
  bound := by
    intro p b hb
    cases p with
    | register timed | dropGuard timed | pollNotified timed | waitPending timed =>
      cases timed <;> cases hb
      decide
    | recheck w n reached => cases reached <;> cases hb <;> decide
    | dropRegistration | relock | relockPending => exact statusCredit_le hb
    | _ => cases hb <;> decide
  made := by
    intro p deadline p' h
    cases p with
    | timerAt deadline w early =>
      cases h
      cases early <;> exact ⟨_, rfl⟩
    | notify n out => cases n <;> cases h
    | _ => cases h
  once := by
    intro p b deadline r p' hb h
    cases p with
    | timerAt => cases hb
    | notify n out => cases n <;> cases h
    | _ => cases h
  pays := credit_pays
  jump := by
    intro p b x p' hb hj
    cases p with
    | waitPending timed w n g =>
      cases timed <;> cases hb
      cases x <;> cases hj
      · exact ⟨_, rfl, le_rfl⟩
      · exact ⟨_, rfl, by decide⟩
    | relockPending w n status =>
      cases x <;> cases hj
      · exact ⟨b, hb, le_rfl⟩
      · exact ⟨_, rfl, Nat.zero_le _, Nat.zero_le _, Nat.zero_le _⟩
    | _ => cases x <;> cases hj <;> cases hb

end QubitLock.Tokio
