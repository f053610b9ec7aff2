import QubitLock.Blocking.Expiry
import QubitLock.Tokio.Expiry

set_option relaxedAutoImplicit false
set_option autoImplicit false

/-!
# Timed waits and the completion of their Timer future

Two consequences of the credits of both programs, for every timed operation, predicate, Timer and
interleaving. A Timer future is not polled again after it reported its completion, which would panic
in an asynchronous future. And notifications do not prolong an expired wait: once the future is
complete, the wait suspends at most once more and evaluates its predicate at most twice more.

## Main definitions

* `PolledOnce` — no future is polled after a ready poll.
* `Prompt` — a wait with a complete future is about to return.

## Main results

* `timer_not_polled_after_ready`, `notifications_do_not_prolong_expired_wait` — both programs
  satisfy them in every run.
-/

namespace QubitLock

variable {σ ρ Choice Tid : Type} [DecidableEq Tid]

omit [DecidableEq Tid] in
/-- Between a poll of a thread's Timer future that was ready and any later poll by the same thread,
the call returned and dropped the future. -/
def PolledOnce (tr : List (Program.Label σ ρ Choice Tid)) : Prop :=
  ∀ t w r w' r' later mid older,
    tr = later ++ .did t (.polled w' r') :: (mid ++ .did t (.polled w (.ready r)) :: older) →
    ∃ d, .did t d ∈ mid ∧ d.dropsTimer = true

/-- A call that has not returned since its Timer future completed has released the state lock at most
once since then, and has evaluated its predicate at most twice. -/
def Prompt (tr : List (Program.Label σ ρ Choice Tid)) : Prop :=
  ∀ t deadline now r later earlier,
    tr = later ++ .ambient (.completed t deadline now r) :: earlier →
    (∀ d, .did t d ∈ later → d.dropsTimer = false) →
    (reportsOf t later).countP Did.isUnlock ≤ 1 ∧ (reportsOf t later).countP Did.isCheck ≤ 2

/-- A program with a credit is prompt. -/
lemma Program.Credit.prompt {Pc : Type} {P : Program σ ρ Pc Choice} (C : P.Credit)
    (T : P.Typed Tid) {s₀ : Setup σ} {tr : List (Program.Label σ ρ Choice Tid)}
    {c : Threads.Conf (Mem σ Tid) Tid Pc} (h : P.Run s₀ tr c) : Prompt tr := by
  intro t deadline now r later earlier htr hopen
  obtain ⟨-, -, b, -, -, -, hle⟩ := C.covers T h ⟨⟨deadline, now, r, earlier, htr⟩, hopen⟩
  have hunlocks : (reportsOf t later).countP Did.isUnlock + b.2.1 ≤ 1 := (Prod.le_def.mp hle.2).1
  have hchecks : (reportsOf t later).countP Did.isCheck + b.2.2 ≤ 2 := (Prod.le_def.mp hle.2).2
  omega

/-- **A Timer future is never polled again after it was ready**, in every run of a blocking monitor
and of a Tokio monitor.

**Proof sketch.** Both programs have credits: from the completion of its future to its return a call has
a credit of one poll. A ready poll uses it up, so none follows before the future is dropped
(`Program.Credit.not_polled_after_ready`). -/
theorem timer_not_polled_after_ready (maxInstant : ℕ) (s₀ : Setup σ) :
    (∀ (tr : List (Program.Label σ ρ (Blocking.Choice σ ρ) Tid))
        (c : Threads.Conf (Mem σ Tid) Tid (Blocking.Pc σ ρ)),
      (Blocking.program maxInstant).Run s₀ tr c → PolledOnce tr) ∧
    ∀ (tr : List (Program.Label σ ρ (Tokio.Choice σ ρ) Tid))
        (c : Threads.Conf (Mem σ Tid) Tid (Tokio.Pc σ ρ)),
      (Tokio.program maxInstant).Run s₀ tr c → PolledOnce tr := by
  constructor
  · intro tr c h t w r w' r' later mid older htr
    exact (Blocking.credits maxInstant).not_polled_after_ready (Blocking.typed maxInstant Tid) h htr
  · intro tr c h t w r w' r' later mid older htr
    exact (Tokio.credits maxInstant).not_polled_after_ready (Tokio.typed maxInstant Tid) h htr

/-- The label is a poll of a Timer future by the thread that was ready. -/
def isReadyPoll (t : Tid) : Program.Label σ ρ Choice Tid → Bool
  | .did u (.polled _ (.ready _)) => u = t
  | _ => false

/-- A wait with a budget expires and returns; the next wait of the thread polls its own future. -/
def expiredTwice : List (Threads.Event Bool (Option TimeError) (Blocking.Choice ℕ Unit)
    (TimerEvent Bool)) :=
  let wait : Blocking.Op ℕ Unit := .waitWhileFor 5 ⟨fun _ v => some (v == 0), fun v => (v, some ())⟩
  [.choose false (.call wait), .run false none, .run false none, .run false none, .run false none,
    .ambient (.complete false (.ok ())), .run false none, .run false none, .run false none,
    .choose false (.call wait), .run false none, .run false none, .run false none, .run false none,
    .ambient (.complete false (.ok ())), .run false none, .run false none, .run false none]

/-- In the run of `expiredTwice` the thread makes two ready polls, each of a future of its own. -/
theorem timer_not_polled_after_ready_twice :
    ∃ tr, ∃ c : Threads.Conf (Mem ℕ Bool) Bool (Blocking.Pc ℕ Unit),
      (Blocking.program 100).Run ⟨0, 0, true⟩ tr c ∧ tr.countP (isReadyPoll false) = 2 ∧
      PolledOnce tr := by
  obtain ⟨tr, c, hr, hp, -⟩ := (Blocking.program 100).threads.exists_run_of_play
    ((Blocking.program 100).start ⟨0, 0, true⟩) expiredTwice
    (p := fun s => decide (s.2.countP (isReadyPoll false) = 2)) (by decide)
  simp only [decide_eq_true_eq] at hp
  exact ⟨tr, c, hr, hp, (timer_not_polled_after_ready 100 ⟨0, 0, true⟩).1 tr c hr⟩

/-- **Notifications cannot prolong an expired wait**, in every run of a blocking monitor and of a Tokio
monitor.

**Proof sketch.** Both programs have credits. From the completion on every release of the lock and every
check is paid from the credit of the thread, which no notification raises, and no poll is pending any
more (`Program.Credit.prompt`). -/
theorem notifications_do_not_prolong_expired_wait (maxInstant : ℕ) (s₀ : Setup σ) :
    (∀ (tr : List (Program.Label σ ρ (Blocking.Choice σ ρ) Tid))
        (c : Threads.Conf (Mem σ Tid) Tid (Blocking.Pc σ ρ)),
      (Blocking.program maxInstant).Run s₀ tr c → Prompt tr) ∧
    ∀ (tr : List (Program.Label σ ρ (Tokio.Choice σ ρ) Tid))
        (c : Threads.Conf (Mem σ Tid) Tid (Tokio.Pc σ ρ)),
      (Tokio.program maxInstant).Run s₀ tr c → Prompt tr :=
  ⟨fun _ _ h => (Blocking.credits maxInstant).prompt (Blocking.typed maxInstant Tid) h,
    fun _ _ h => (Tokio.credits maxInstant).prompt (Tokio.typed maxInstant Tid) h⟩

/-- The label completes the Timer future of the thread. -/
def completes (t : Tid) : Program.Label σ ρ Choice Tid → Bool
  | .ambient (.completed u _ _ _) => u = t
  | _ => false

/-- The labels after the latest completion of the thread's Timer future. -/
def sinceCompletion (t : Tid) (tr : List (Program.Label σ ρ Choice Tid)) :
    List (Program.Label σ ρ Choice Tid) :=
  tr.takeWhile fun l => !completes t l

/-- A trace with a completion splits at the latest one. -/
lemma exists_completion {t : Tid} {tr : List (Program.Label σ ρ Choice Tid)}
    (h : tr.any (completes t) = true) : ∃ deadline now r earlier,
      tr = sinceCompletion t tr ++ .ambient (.completed t deadline now r) :: earlier := by
  induction tr with
  | nil => cases h
  | cons l tr ih =>
    by_cases hl : completes t l = true
    · have hsince : sinceCompletion t (l :: tr) = [] := by simp [sinceCompletion, hl]
      rw [hsince]
      unfold completes at hl
      split at hl
      · obtain rfl := of_decide_eq_true hl
        exact ⟨_, _, _, tr, rfl⟩
      · cases hl
    · have hsince : sinceCompletion t (l :: tr) = l :: sinceCompletion t tr := by
        simp [sinceCompletion, hl]
      obtain ⟨deadline, now, r, earlier, heq⟩ := ih (by simpa [hl] using h)
      rw [hsince]
      exact ⟨deadline, now, r, earlier, congrArg (l :: ·) heq⟩

/-- A Tokio wait is notified, and its Timer future completes after the poll of the deadline: the wait
checks, suspends once more, and gives up after another check. -/
def notifiedThenExpired : List (Threads.Event Bool (Option TimeError) (Tokio.Choice ℕ Unit)
    (TimerEvent Bool)) :=
  [.choose false (.call (.waitWhileForAsync 5 ⟨fun _ v => some (v == 0), fun v => (v, some ())⟩)),
    .choose false .poll, .run false none, .run false none, .run false none, .run false none,
    .run false none, .run false none, .run false none, .run false none,
    .choose true (.call .notifyOne), .run true none, .run true none, .run true none,
    .choose false .poll, .run false none, .run false none, .run false none, .run false none,
    .run false none, .ambient (.complete false (.ok ())),
    .run false none, .run false none, .run false none, .run false none, .run false none,
    .run false none, .run false none]

/-- In the run of `notifiedThenExpired` the bounds are reached. -/
theorem notifications_do_not_prolong_expired_wait_notified :
    ∃ tr later deadline now r earlier, ∃ c : Threads.Conf (Mem ℕ Bool) Bool (Tokio.Pc ℕ Unit),
      (Tokio.program 100).Run ⟨0, 0, true⟩ tr c ∧
      tr = later ++ .ambient (.completed false deadline now r) :: earlier ∧
      (reportsOf false later).countP Did.isUnlock = 1 ∧
      (reportsOf false later).countP Did.isCheck = 2 ∧ Prompt tr := by
  obtain ⟨tr, c, hr, hp, -⟩ := (Tokio.program 100).threads.exists_run_of_play
    ((Tokio.program 100).start ⟨0, 0, true⟩) notifiedThenExpired
    (p := fun s => s.2.any (completes false) ∧
      (reportsOf false (sinceCompletion false s.2)).countP Did.isUnlock = 1 ∧
      (reportsOf false (sinceCompletion false s.2)).countP Did.isCheck = 2) (by decide)
  simp only [decide_eq_true_eq] at hp
  obtain ⟨hany, hunlock, hcheck⟩ := hp
  obtain ⟨deadline, now, r, earlier, heq⟩ := exists_completion hany
  exact ⟨tr, _, deadline, now, r, earlier, c, hr, heq, hunlock, hcheck,
    (notifications_do_not_prolong_expired_wait 100 ⟨0, 0, true⟩).2 tr c hr⟩

end QubitLock
