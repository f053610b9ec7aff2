import QubitLock.Monitor.Permits
import QubitLock.Tokio.Broadcast

set_option relaxedAutoImplicit false
set_option autoImplicit false

/-!
# Permits on the Tokio monitor

The account of `Monitor/Permits.lean` for `wait_while_async` and its timed variants together with
`with_write_notify_one_async`. A selected wait whose deadline is ready still checks before it
returns; only a Timer error, and the drop of the future at one of its awaits, end it without a
check.

## Main definitions

* `Tokio.PermitCall` — the calls of a program that passes permits on.
* `Tokio.Selectable` — where the latest registration of a task may be selected.

## Main results

* `Tokio.notify_one_accounts_for_permits` — the account.
-/

namespace QubitLock.Tokio

variable {ρ : Type}

/-- The calls of a program that passes permits on: waits for a permit, untimed or timed, and
updates that add a permit and notify one; reads and plain notifications do no harm. -/
def PermitCall : Op ℕ ρ → Prop
  | .waitWhileAsync w | .waitWhileForAsync _ w | .waitWhileWithDeadlineAsync _ w => TakesPermit w
  | .withWriteNotifyOneAsync f => AddsPermit f
  | .withReadAsync _ | .notifyOne | .notifyAll => True
  | .withWriteAsync _ | .withWriteNotifyAllAsync _ => False

/-- The call is an increment. -/
def Op.isPut : Op ℕ ρ → Bool
  | .withWriteNotifyOneAsync _ => true
  | _ => false

/-- A Timer error and a cancellation give up a wait without a further check. -/
def losesSelection : Outcome ρ → Bool
  | .timed (.error _) | .cancelled => true
  | _ => false

/-- The program counters at which the latest registration of the task may be selected and not
settled: from the registration to the next check with its action, to the return of an error, or to
the end of the drop of the future. -/
def Selectable : Pc ℕ ρ → Prop
  | .dropGuard _ _ _ _ | .pollDeadline _ _ _ | .pollNotified _ _ _ _ | .waitPending _ _ _ _ |
    .dropRegistration _ _ _ _ | .relock _ _ _ | .relockPending _ _ _ | .deadlineReached _ _ |
    .check _ _ | .recheck _ _ _ | .act _ _ | .finish (.timed (.error _)) |
    .cancelRegistration _ _ | .cancelled _ => True
  | _ => False

/-- A wait of a permit program is a wait for a permit. -/
lemma PermitCall.takes {op : Op ℕ ρ} {w : Condition ℕ ρ} (h : PermitCall op)
    (hw : op.condition = some w) : TakesPermit w := by
  cases op <;> cases hw <;> exact h

/-- A poll of the await on a registration is part of the wait. -/
lemma selectable_pollWait (timed : Bool) (w : Condition ℕ ρ) (n : ℕ) (g : Registration) :
    Selectable (pollWait timed w n g) := by
  cases timed <;> trivial

/-- With the lock a wait goes on to a check or to the return of an error. -/
lemma selectable_relocked (w : Condition ℕ ρ) (n : ℕ)
    (status : Option (Except TimeError WaitTimeoutStatus)) : Selectable (relocked w n status) := by
  rcases status with - | (e | status)
  · trivial
  · trivial
  · cases status <;> trivial

/-- **A selected wait goes on to a check, or gives up with an error or by cancellation.**

**Proof sketch.** One case for each program counter. After its selection a wait stays in the suspension,
takes the lock again, and comes to its check; it returns before the check is done only with a Timer
error or because its future is dropped. -/
lemma selectable_reports {maxInstant : ℕ} {op : Op ℕ ρ} {p p' : Pc ℕ ρ} {d : Did ℕ ρ}
    (h : (code maxInstant p).Reports d p') (hat : At op p) (hc : PermitCall op)
    (hp : Selectable p) :
    d.entered = none ∧ (d.settles = false → Selectable p') ∧
      ∀ out, d.outcome = some out → losesSelection out = true := by
  cases p with
  | dropGuard timed w n g =>
    cases h
    exact ⟨rfl, fun _ => selectable_pollWait timed w n g, fun out ho => by cases ho⟩
  | pollDeadline w n g =>
    cases h with
    | pollTimer _ _ r =>
      refine ⟨rfl, fun _ => ?_, fun out ho => by cases ho⟩
      cases r <;> trivial
  | pollNotified timed w n g =>
    cases h with
    | pollNotified _ _ b =>
      refine ⟨rfl, fun _ => ?_, fun out ho => by cases ho⟩
      cases b <;> trivial
  | waitPending | relockPending => cases h
  | dropRegistration | cancelRegistration =>
    cases h
    exact ⟨rfl, fun _ => trivial, fun out ho => by cases ho⟩
  | relock w n status =>
    cases h with
    | tryLock => exact ⟨rfl, fun _ => selectable_relocked w n status, fun out ho => by cases ho⟩
    | contended => exact ⟨rfl, fun _ => trivial, fun out ho => by cases ho⟩
  | deadlineReached w n =>
    cases h with
    | pollTimer _ _ r =>
      refine ⟨rfl, fun _ => ?_, fun out ho => by cases ho⟩
      rcases r with - | - | - <;> trivial
  | check w n =>
    obtain rfl : op = _ := hat
    cases h with
    | check _ _ v =>
      refine ⟨rfl, fun hset => ?_, fun out ho => by cases ho⟩
      rw [TakesPermit.eq_false hc hset]
      trivial
  | recheck w n reached =>
    cases h with
    | check _ _ v =>
      refine ⟨rfl, fun hset => ?_, fun out ho => by cases ho⟩
      rw [(hc.takes hat.1).eq_false hset]
      trivial
  | act w timed =>
    cases h
    exact ⟨rfl, fun hset => (by cases hset), fun out ho => by cases ho⟩
  | finish out =>
    cases h
    refine ⟨rfl, fun hset => (by cases hset), fun out' ho => ?_⟩
    cases ho
    cases out with
    | timed r => cases r <;> first | rfl | cases hp
    | _ => cases hp
  | cancelled timed =>
    cases h
    refine ⟨rfl, fun hset => (by cases hset), fun out ho => ?_⟩
    cases ho
    rfl
  | _ => cases hp

/-- The writes of a permit program: an update adds a permit, the action of a wait takes one. -/
lemma permit_wrote {maxInstant : ℕ} {op : Op ℕ ρ} {p p' : Pc ℕ ρ} {f : ℕ → ℕ × Option ρ} {v : ℕ}
    {r : Option ρ} (h : (code maxInstant p).Reports (.wrote f v r) p') (hat : At op p)
    (hc : PermitCall op) :
    (op.isPut = true ∧ (f v).1 = v + 1 ∧ ¬ Selectable p) ∨
      (op.isPut = false ∧ (f v).1 = v - 1) := by
  cases p with
  | write f' n =>
    cases h
    cases op <;> cases hat
    · cases hc
    · exact .inl ⟨rfl, (hc v).1, id⟩
    · cases hc
  | act w timed =>
    cases h
    refine .inr ⟨?_, ((hc.takes hat.1).2 v).1⟩
    cases op <;> first | rfl | cases hat.1
  | notify n out => cases n <;> cases h
  | _ => cases h

/-- Only a wait for a permit registers. -/
lemma permit_register {maxInstant : ℕ} {op : Op ℕ ρ} {p p' : Pc ℕ ρ} {g : Option Registration}
    (h : (code maxInstant p).Reports (.registered g) p') (hat : At op p) (hc : PermitCall op) :
    ∃ w, waitsOn p = some w ∧ w.Pure (· == 0) := by
  cases p with
  | register timed w n => exact ⟨w, rfl, (hc.takes hat.1).1⟩
  | notify n out => cases n <;> cases h
  | _ => cases h

/-- The Tokio monitor passes permits on. -/
def permits (maxInstant : ℕ) (Tid : Type) [DecidableEq Tid] :
    Permits (calls maxInstant : Calls (program maxInstant) (Op ℕ ρ)) (waits maxInstant)
      (typed maxInstant Tid).typ where
  Good := PermitCall
  isPut := Op.isPut
  loses := losesSelection
  Selectable := Selectable
  reg := by
    intro p g h
    cases p <;> trivial
  user := by
    rintro p rfl hp
    cases hp
  user_reports := by
    rintro p d p' h rfl
    cases h
  step := selectable_reports
  jump := by
    intro p x p' h hp
    cases p <;> cases x <;> cases h <;> first | exact selectable_pollWait _ _ _ _ | trivial
  wrote := permit_wrote
  blocked := by
    intro p v p' op h hat hc
    obtain ⟨w, n, hw, ha⟩ := condition_of_checked h hat
    have hzero := (hc.takes hw).1.eq_true ha.symm
    simpa using hzero
  register := permit_register

variable {Tid : Type} [DecidableEq Tid]

/-- **A selection is lost only by cancellation or a Timer error.** Let the tasks wait for permits,
untimed or timed, and add permits with `with_write_notify_one_async`, and let any future be dropped
at any await. While some wait is in the registry, the number of permits is at most the number of
increments whose `notify_one` has not executed its `take_one`, plus the number of selected waits
that have neither completed a check nor returned nor been dropped, plus the number of selected
waits that were dropped or returned a Timer error before they completed a check.

**Proof sketch.** The general account `Permits.account`, for the waits and the increments of the Tokio
program: a wait that is dropped after its selection is discarded like one that returns a Timer error
(`selectable_reports`). -/
theorem notify_one_accounts_for_permits (maxInstant : ℕ) (s₀ : Setup ℕ)
    {tr : List (Program.Label ℕ ρ (Choice ℕ ρ) Tid)} {c : Threads.Conf (Mem ℕ Tid) Tid (Pc ℕ ρ)}
    (h : (program maxInstant).Run s₀ tr c)
    (hcalls : ∀ t (op : Op ℕ ρ), .chose t (.call op) ∈ tr → PermitCall op)
    (hne : c.mem.registrations ≠ []) :
    c.mem.value ≤ (pendingPuts Choice.called Op.isPut tr).length + (selected tr).length +
      discarded losesSelection tr := by
  refine (Permits.account (T := typed maxInstant Tid) (Q := permits maxInstant Tid) h ?_).bound hne
  intro t x op hmem hx
  cases x <;> cases hx
  exact hcalls t op hmem

/-- Tasks `0` and `1` wait for a permit, task `2` adds one and selects task `0`, and the future of
task `0` is dropped before it is polled again. -/
def droppedSelection : List (Threads.Event ℕ (Option TimeError) (Choice ℕ Unit)
    (TimerEvent ℕ)) :=
  [.choose 0 (.call (.waitWhileAsync ⟨fun _ v => some (v == 0), fun v => (v - 1, some ())⟩)),
    .choose 0 .poll, .run 0 none, .run 0 none, .run 0 none, .run 0 none, .run 0 none,
    .choose 1 (.call (.waitWhileForAsync 5 ⟨fun _ v => some (v == 0), fun v => (v - 1, some ())⟩)),
    .choose 1 .poll, .run 1 none, .run 1 none, .run 1 none, .run 1 none, .run 1 none, .run 1 none,
    .run 1 none, .run 1 none,
    .choose 2 (.call (.withWriteNotifyOneAsync fun v => (v + 1, some ()))),
    .choose 2 .poll, .run 2 none, .run 2 none, .run 2 none, .run 2 none, .run 2 none,
    .choose 0 .cancel, .run 0 none, .run 0 none]

/-- In the run of `droppedSelection` there is one permit and a registered wait; no increment is
pending and no wait is selected, but one selection was discarded. -/
theorem notify_one_accounts_for_permits_dropped :
    ∃ tr, ∃ c : Threads.Conf (Mem ℕ ℕ) ℕ (Pc ℕ Unit),
      (program 100).Run ⟨0, 0, false⟩ tr c ∧ c.mem.registrations = [⟨2, 1⟩] ∧ c.mem.value = 1 ∧
      pendingPuts Choice.called Op.isPut tr = [] ∧ selected tr = [] ∧
      discarded losesSelection tr = 1 ∧
      c.mem.value ≤ (pendingPuts Choice.called Op.isPut tr).length + (selected tr).length +
        discarded losesSelection tr := by
  obtain ⟨tr, c, hr, hp, hes⟩ := (program 100).threads.exists_run_of_play
    ((program 100).start ⟨0, 0, false⟩) droppedSelection
    (p := fun s => s.1.mem.registrations = [⟨2, 1⟩] ∧ s.1.mem.value = 1 ∧
      pendingPuts Choice.called Op.isPut s.2 = [] ∧ selected s.2 = [] ∧
      discarded losesSelection s.2 = 1) (by decide)
  simp only [decide_eq_true_eq] at hp
  obtain ⟨hregs, hval, hput, hsel, hdis⟩ := hp
  refine ⟨tr, c, hr, hregs, hval, hput, hsel, hdis, ?_⟩
  refine notify_one_accounts_for_permits 100 _ hr ?_ (by simp [hregs])
  intro t op hmem
  have := hes _ _ hmem
  simp only [droppedSelection, List.mem_cons, Threads.Event.choose.injEq, Choice.call.injEq,
    reduceCtorEq, and_false, false_or, or_false, List.not_mem_nil] at this
  obtain ⟨-, rfl⟩ | ⟨-, rfl⟩ | ⟨-, rfl⟩ := this
  · exact ⟨fun _ _ => rfl, fun _ => ⟨rfl, rfl⟩⟩
  · exact ⟨fun _ _ => rfl, fun _ => ⟨rfl, rfl⟩⟩
  · exact fun _ => ⟨rfl, rfl⟩

end QubitLock.Tokio
