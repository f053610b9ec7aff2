import QubitLock.Monitor.Calls
import QubitLock.Tokio.Program

set_option relaxedAutoImplicit false
set_option autoImplicit false

/-!
# The calls of a Tokio monitor

Which program counters lie in the code of which operation, with the arguments of the operation.

## Main definitions

* `Tokio.At` — the program counter belongs to the operation.
* `Tokio.calls` — the calls of the program.
-/

namespace QubitLock.Tokio

variable {σ ρ : Type}

/-- What an asynchronous operation does once it has the state lock. -/
def Op.entry : Op σ ρ → Option (Entry σ ρ)
  | .withReadAsync f => some (.read f)
  | .withWriteAsync f => some (.write f none)
  | .withWriteNotifyOneAsync f => some (.write f (some .one))
  | .withWriteNotifyAllAsync f => some (.write f (some .all))
  | .notifyOne | .notifyAll => none
  | .waitWhileAsync w => some (.check w)
  | .waitWhileForAsync timeout w => some (.sample timeout w)
  | .waitWhileWithDeadlineAsync deadline w => some (.checkDeadline deadline w)

/-- The notification that an operation sends. -/
def Op.notifies : Op σ ρ → Option Notify
  | .withWriteNotifyOneAsync _ | .notifyOne => some .one
  | .withWriteNotifyAllAsync _ | .notifyAll => some .all
  | _ => none

/-- The closures of a predicate wait. -/
def Op.condition : Op σ ρ → Option (Condition σ ρ)
  | .waitWhileAsync w | .waitWhileForAsync _ w | .waitWhileWithDeadlineAsync _ w => some w
  | _ => none

/-- The operation is a timed wait. -/
def Op.timed : Op σ ρ → Bool
  | .waitWhileForAsync _ _ | .waitWhileWithDeadlineAsync _ _ => true
  | _ => false

/-- The program counter belongs to the operation. -/
def At (op : Op σ ρ) : Pc σ ρ → Prop
  | .idle => False
  | .created e | .lock e | .lockPending e => op.entry = some e
  | .read f => op = .withReadAsync f
  | .write f n => op.entry = some (.write f n)
  | .writeDone n _ => ∃ f, op.entry = some (.write f (some n))
  | .notify n _ => op.notifies = some n
  | .signal _ _ _ => op.notifies.isSome
  | .check w _ => op = .waitWhileAsync w
  | .sample timeout w => op = .waitWhileForAsync timeout w
  | .checkFor timeout _ w => op = .waitWhileForAsync timeout w
  | .checkDeadline deadline w => op = .waitWhileWithDeadlineAsync deadline w
  | .timerAt deadline w early =>
    if early then op = .waitWhileWithDeadlineAsync deadline w
    else ∃ timeout, op = .waitWhileForAsync timeout w
  | .earlyPoll w => ∃ deadline, op = .waitWhileWithDeadlineAsync deadline w
  | .register timed w _ | .dropGuard timed w _ _ | .pollNotified timed w _ _ |
    .waitPending timed w _ _ | .act w timed => op.condition = some w ∧ op.timed = timed
  | .pollDeadline w _ _ | .deadlineReached w _ | .recheck w _ _ =>
    op.condition = some w ∧ op.timed = true
  | .dropRegistration w _ _ status | .relock w _ status | .relockPending w _ status =>
    op.condition = some w ∧ op.timed = status.isSome
  | .finish _ | .done _ | .cancelRegistration _ _ | .cancelled _ | .unwindGuard => True

lemma at_begin (op : Op σ ρ) : At op op.begin := by
  cases op <;> rfl

lemma at_entry {op : Op σ ρ} {e : Entry σ ρ} (h : op.entry = some e) : At op e.pc := by
  cases op <;> cases h <;> rfl

lemma at_signalAll {op : Op σ ρ} (as : List ℕ) (out : Outcome ρ) (h : op.notifies.isSome) :
    At op (signalAll as out) := by
  cases as
  · trivial
  · exact h

lemma at_pollWait {op : Op σ ρ} {timed : Bool} {w : Condition σ ρ} {n : ℕ} {g : Registration}
    (h : op.condition = some w ∧ op.timed = timed) : At op (pollWait timed w n g) := by
  cases timed <;> exact h

lemma at_relocked {op : Op σ ρ} {w : Condition σ ρ} {n : ℕ}
    {status : Option (Except TimeError WaitTimeoutStatus)}
    (h : op.condition = some w ∧ op.timed = status.isSome) : At op (relocked w n status) := by
  rcases status with - | (e | status)
  · cases op <;> simp_all [Op.condition, Op.timed, relocked, At]
  · trivial
  · cases status <;> exact h

/-- A notifying write sends the notification it was called for. -/
lemma Op.notifies_of_entry {op : Op σ ρ} {f : σ → σ × Option ρ} {n : Notify}
    (h : op.entry = some (.write f (some n))) : op.notifies = some n := by
  cases op <;> cases h <;> rfl

/-- The primitives of an operation continue in the operation. -/
lemma at_reports {maxInstant : ℕ} {op : Op σ ρ} {p : Pc σ ρ} {d : Did σ ρ} {p' : Pc σ ρ}
    (h : (code maxInstant p).Reports d p') (hat : At op p) : At op p' ∨ p' = .idle := by
  cases p with
  | idle | created | lockPending | waitPending | relockPending => cases h
  | lock e =>
    cases h with
    | tryLock => exact .inl (at_entry hat)
    | contended => exact .inl hat
  | read f =>
    cases h with
    | read _ _ v => cases f v <;> exact .inl trivial
  | write f n =>
    cases h with
    | write _ _ v =>
      refine .inl ?_
      cases (f v).2 with
      | none => trivial
      | some r =>
        cases n with
        | none => trivial
        | some n => exact ⟨f, hat⟩
  | writeDone n out =>
    cases h
    obtain ⟨f, hf⟩ := hat
    exact .inl (Op.notifies_of_entry hf)
  | notify n out =>
    have hsome : op.notifies.isSome := by rw [show op.notifies = some n from hat]; rfl
    cases n <;> cases h <;> exact .inl (at_signalAll _ _ hsome)
  | signal a rest out =>
    cases h
    exact .inl (at_signalAll _ _ hat)
  | check w n =>
    obtain rfl : op = .waitWhileAsync w := hat
    cases h with
    | check _ _ v => rcases w.waiting n v with - | - | - <;> exact .inl (by trivial)
  | sample timeout w =>
    cases h
    exact .inl hat
  | checkFor timeout startedAt w =>
    obtain rfl : op = .waitWhileForAsync timeout w := hat
    cases h with
    | check _ _ v =>
      refine .inl ?_
      rcases w.waiting 0 v with - | - | -
      · trivial
      · exact ⟨rfl, rfl⟩
      · dsimp only
        split
        · trivial
        · split
          · exact ⟨timeout, rfl⟩
          · trivial
  | checkDeadline deadline w =>
    obtain rfl : op = .waitWhileWithDeadlineAsync deadline w := hat
    cases h with
    | check _ _ v =>
      refine .inl ?_
      rcases w.waiting 0 v with - | - | -
      · trivial
      · exact ⟨rfl, rfl⟩
      · rfl
  | timerAt deadline w early =>
    cases h with
    | timerAt _ _ r =>
      refine .inl ?_
      cases r with
      | error e => trivial
      | ok _ =>
        cases early with
        | true => exact ⟨deadline, hat⟩
        | false =>
          obtain ⟨timeout, rfl⟩ := hat
          exact ⟨rfl, rfl⟩
  | earlyPoll w =>
    obtain ⟨deadline, rfl⟩ := hat
    cases h with
    | pollTimer _ _ r =>
      refine .inl ?_
      rcases r with - | - | -
      · exact ⟨rfl, rfl⟩
      all_goals trivial
  | register timed w n =>
    cases h with
    | register _ g =>
      refine .inl ?_
      cases g with
      | none => trivial
      | some g => exact hat
  | dropGuard timed w n g =>
    cases h
    exact .inl (at_pollWait hat)
  | pollDeadline w n g =>
    cases h with
    | pollTimer _ _ r => cases r <;> exact .inl hat
  | pollNotified timed w n g =>
    cases h with
    | pollNotified _ _ b => cases b <;> cases timed <;> exact .inl hat
  | dropRegistration w n g status =>
    cases h
    exact .inl hat
  | relock w n status =>
    cases h with
    | tryLock => exact .inl (at_relocked hat)
    | contended => exact .inl hat
  | deadlineReached w n =>
    cases h with
    | pollTimer _ _ r =>
      refine .inl ?_
      rcases r with - | - | -
      · exact hat
      · trivial
      · exact hat
  | recheck w n reached =>
    cases h with
    | check _ _ v =>
      refine .inl ?_
      rcases w.waiting n v with - | - | -
      · trivial
      · exact hat
      · cases reached
        · exact hat
        · trivial
  | act w timed =>
    cases h with
    | write _ _ v => cases (w.f v).2 <;> exact .inl trivial
  | cancelRegistration =>
    cases h
    exact .inl trivial
  | finish | done | cancelled | unwindGuard =>
    cases h
    exact .inr rfl

/-- A check of an operation evaluates the predicate of the operation. -/
lemma condition_of_checked {maxInstant : ℕ} {op : Op σ ρ} {p p' : Pc σ ρ} {v : σ}
    {a : Option Bool} (h : (code maxInstant p).Reports (.checked v a) p') (hat : At op p) :
    ∃ w n, op.condition = some w ∧ a = w.waiting n v := by
  cases p with
  | check w n | checkFor _ _ w | checkDeadline _ w =>
    obtain rfl : op = _ := hat
    cases h
    exact ⟨w, _, rfl, rfl⟩
  | recheck w n reached =>
    cases h
    exact ⟨w, n, hat.1, rfl⟩
  | notify n out => cases n <;> cases h
  | _ => cases h

/-- The operation that a choice calls. -/
def Choice.called : Choice σ ρ → Option (Op σ ρ)
  | .call op => some op
  | _ => none

/-- The calls of a Tokio monitor. -/
def calls (maxInstant : ℕ) :
    Calls (program maxInstant : Program σ ρ (Pc σ ρ) (Choice σ ρ)) (Op σ ρ) where
  called := Choice.called
  At := At
  User p := p = .idle
  idle := rfl
  reports := at_reports
  reports_user := by
    rintro p d p' h rfl
    cases h
  jump_call := by
    intro p x p' o h hx
    cases p <;> cases x <;> cases h <;> cases hx
    exact at_begin _
  jump_none := by
    intro p x p' o h hx hat
    cases p <;> cases x <;> cases h <;> cases hx
    all_goals first | exact hat | exact at_pollWait hat | trivial
  jump_user := by
    rintro p x p' h hx rfl
    cases x <;> cases h
    cases hx

/-- The latest call of a task was made. -/
lemma call_mem {Tid : Type} [DecidableEq Tid] {tr : List (Program.Label σ ρ (Choice σ ρ) Tid)}
    {t : Tid} {op : Op σ ρ} (h : lastCall Choice.called tr t = some op) :
    .chose t (.call op) ∈ tr := by
  obtain ⟨x, hx, hmem⟩ := chose_mem_of_lastCall h
  cases x <;> cases hx
  exact hmem

end QubitLock.Tokio
