import QubitLock.Blocking.Program
import QubitLock.Monitor.Calls

set_option relaxedAutoImplicit false
set_option autoImplicit false

/-!
# The calls of a blocking monitor

Which program counters lie in the code of which operation of the monitor or of a guard, with the
arguments of the operation.

## Main definitions

* `Blocking.Call` — an operation of the monitor or of a guard.
* `Blocking.At` — the program counter belongs to the call.
* `Blocking.calls` — the calls of the program.
-/

namespace QubitLock.Blocking

variable {σ ρ : Type}

/-- A call: an operation of the monitor or of a guard. -/
inductive Call (σ ρ : Type) where
  | op (op : Op σ ρ)
  | guard (op : GuardOp σ ρ)

/-- The call that a choice makes. -/
def Choice.called : Choice σ ρ → Option (Call σ ρ)
  | .call op => some (.op op)
  | .guard op => some (.guard op)
  | _ => none

/-- What a call does once it has the state lock. A total timeout becomes a deadline before that. -/
def Call.Enters (c : Call σ ρ) : Entry σ ρ → Prop
  | .read f => c = .op (.withRead f)
  | .write f none => c = .op (.withWrite f)
  | .write f (some .one) => c = .op (.withWriteNotifyOne f)
  | .write f (some .all) => c = .op (.withWriteNotifyAll f)
  | .check w => c = .op (.waitWhile w)
  | .sample timeout w => c = .op (.waitWhileFor timeout w)
  | .checkDeadline deadline w =>
    c = .op (.waitWhileWithDeadline deadline w) ∨
      ∃ timeout, c = .op (.waitWhileWithTotalTimeout timeout w)
  | .held => c = .op .lock

/-- The notification that a call sends. -/
def Call.notifies : Call σ ρ → Option Notify
  | .op (.withWriteNotifyOne _) | .op .notifyOne | .guard .notifyOne => some .one
  | .op (.withWriteNotifyAll _) | .op .notifyAll | .guard .notifyAll => some .all
  | _ => none

/-- The closures of a predicate wait. -/
def Call.condition : Call σ ρ → Option (Condition σ ρ)
  | .op (.waitWhile w) | .op (.waitWhileFor _ w) | .op (.waitWhileWithDeadline _ w) |
    .op (.waitWhileWithTotalTimeout _ w) => some w
  | _ => none

/-- The call is a timed wait. -/
def Call.timed : Call σ ρ → Bool
  | .op (.waitWhileFor _ _) | .op (.waitWhileWithDeadline _ _) |
    .op (.waitWhileWithTotalTimeout _ _) | .guard (.waitFor _) | .guard (.waitUntil _) => true
  | _ => false

/-- The call is an operation of a guard. -/
def Call.onGuard : Call σ ρ → Bool
  | .op _ => false
  | .guard _ => true

/-- The caller of a guard wait belongs to the call. -/
def Call.Waits (c : Call σ ρ) (timed : Bool) : Caller σ ρ → Prop
  | .loop w _ => c.condition = some w ∧ c.timed = timed
  | .guard => c.onGuard = true ∧ c.timed = timed

/-- The program counter belongs to the call. None is at `unwindRegistration`: no guard wait finds
its slot empty. -/
def At (c : Call σ ρ) : Pc σ ρ → Prop
  | .idle | .held | .heldUnwinding | .unwindRegistration _ _ => False
  | .acquire e => c.Enters e
  | .deadlineAfter timeout w => c = .op (.waitWhileWithTotalTimeout timeout w)
  | .read f => c.Enters (.read f)
  | .write f n => c.Enters (.write f n)
  | .guardRead f => c = .guard (.deref f)
  | .guardWrite f => c = .guard (.derefMut f)
  | .isPoisoned => c = .op .isPoisoned
  | .clearPoison => c = .op .clearPoison
  | .notifyRelease n _ | .notify n _ => c.notifies = some n
  | .signal _ _ _ => c.notifies.isSome
  | .check w _ => c.Enters (.check w)
  | .sample timeout w | .checkFor timeout _ w => c.Enters (.sample timeout w)
  | .checkDeadline deadline w => c.Enters (.checkDeadline deadline w)
  | .timerAt deadline (.loop w _) early =>
    if early then c.Enters (.checkDeadline deadline w)
    else ∃ timeout, c.Enters (.sample timeout w)
  | .timerAt _ .guard _ => c.Waits true .guard
  | .timerAfter timeout => c = .guard (.waitFor timeout)
  | .earlyPoll w => ∃ deadline, c.Enters (.checkDeadline deadline w)
  | .recheck w _ _ => c.condition = some w ∧ c.timed = true
  | .act w timed => c.condition = some w ∧ c.timed = timed
  | .pollNoWaiter k | .pollRegistered k _ | .dropEarly k _ _ | .reacquireTimed k _ |
    .finalPoll k _ => c.Waits true k
  | .register timed k | .release timed k _ | .park timed k _ | .dropRegistration timed k _ =>
    c.Waits timed k
  | .reacquire k => c.Waits false k
  | .finish _ | .done _ | .guardDone _ | .unwindGuard | .guardPanicked => True

/-- The program counter belongs to user code, or to a panic that left it. -/
def User : Pc σ ρ → Prop
  | .idle | .held | .heldUnwinding | .unwindGuard => True
  | _ => False

lemma at_begin (op : Op σ ρ) : At (.op op) op.begin := by
  cases op <;> first | rfl | exact .inl rfl

lemma at_guard_begin (op : GuardOp σ ρ) : At (.guard op) op.begin := by
  cases op <;> first | rfl | exact ⟨rfl, rfl⟩ | trivial

lemma at_entry {c : Call σ ρ} {e : Entry σ ρ} (h : c.Enters e) : At c e.pc ∨ User e.pc := by
  cases e with
  | held => exact .inr trivial
  | _ => exact .inl h

lemma at_wakeAll {c : Call σ ρ} (as : List ℕ) (out : Outcome ρ) (h : c.notifies.isSome) :
    At c (wakeAll as out) := by
  cases as
  · trivial
  · exact h

/-- A wait without a Timer is `wait_while`. -/
lemma enters_check {c : Call σ ρ} {w : Condition σ ρ} (h : c.condition = some w)
    (ht : c.timed = false) : c.Enters (.check w) := by
  cases c with
  | op op => cases op <;> cases h <;> first | rfl | cases ht
  | guard => cases h

/-- A wait until a deadline is timed. -/
lemma condition_of_enters {c : Call σ ρ} {deadline : ℕ} {w : Condition σ ρ}
    (h : c.Enters (.checkDeadline deadline w)) : c.condition = some w ∧ c.timed = true := by
  rcases h with rfl | ⟨timeout, rfl⟩ <;> exact ⟨rfl, rfl⟩

lemma at_resume {c : Call σ ρ} {k : Caller σ ρ} (h : c.Waits false k) : At c (resume k) := by
  cases k with
  | loop w n => exact enters_check h.1 h.2
  | guard => trivial

lemma at_resumeTimed {c : Call σ ρ} {k : Caller σ ρ} (h : c.Waits true k)
    (r : Except TimeError WaitTimeoutStatus) : At c (resumeTimed k r) := by
  cases k with
  | loop w n =>
    cases r with
    | error e => trivial
    | ok status => exact h
  | guard => cases r <;> trivial

lemma at_panicked (c : Call σ ρ) (k : Caller σ ρ) : At c (panicked k) := by
  cases k <;> trivial

lemma at_timerFailed (c : Call σ ρ) (k : Caller σ ρ) (e : TimeError) : At c (timerFailed k e) := by
  cases k <;> trivial

/-- A notifying write sends the notification it was called for. -/
lemma notifies_of_enters {c : Call σ ρ} {f : σ → σ × Option ρ} {n : Notify}
    (h : c.Enters (.write f (some n))) : c.notifies = some n := by
  cases n <;> obtain rfl : c = _ := h <;> rfl

/-- The primitives of a call continue in the call, or return to user code. -/
lemma at_reports {maxInstant : ℕ} {c : Call σ ρ} {p : Pc σ ρ} {d : Did σ ρ} {p' : Pc σ ρ}
    (h : (code maxInstant p).Reports d p') (hat : At c p) : At c p' ∨ User p' := by
  cases p with
  | idle | held | heldUnwinding => cases h
  | acquire e =>
    cases h
    exact at_entry hat
  | deadlineAfter timeout w =>
    cases h
    dsimp only
    split
    · exact .inl (.inr ⟨timeout, hat⟩)
    · exact .inl trivial
  | read f | guardRead f =>
    cases h with
    | read _ _ v => cases f v <;> first | exact .inl trivial | exact .inr trivial
  | write f n =>
    cases h with
    | write _ _ v =>
      cases (f v).2 with
      | none => exact .inl trivial
      | some r =>
        cases n with
        | none => exact .inl trivial
        | some n => exact .inl (notifies_of_enters hat)
  | guardWrite f =>
    cases h with
    | write _ _ v => cases (f v).2 <;> first | exact .inl trivial | exact .inr trivial
  | isPoisoned | clearPoison =>
    cases h
    exact .inl trivial
  | notifyRelease n out =>
    cases h
    exact .inl hat
  | notify n out =>
    have hsome : c.notifies.isSome := by rw [show c.notifies = some n from hat]; rfl
    cases n <;> cases h <;> exact .inl (at_wakeAll _ _ hsome)
  | signal a rest out =>
    cases h
    exact .inl (at_wakeAll _ _ hat)
  | check w n =>
    obtain rfl : c = _ := hat
    cases h with
    | check _ _ v =>
      rcases w.waiting n v with - | - | -
      · exact .inl trivial
      all_goals exact .inl ⟨rfl, rfl⟩
  | sample timeout w =>
    cases h
    exact .inl hat
  | checkFor timeout startedAt w =>
    cases h with
    | check _ _ v =>
      rcases w.waiting 0 v with - | - | -
      · exact .inl trivial
      · obtain rfl : c = _ := hat
        exact .inl ⟨rfl, rfl⟩
      · dsimp only
        split
        · exact .inl trivial
        · split
          · exact .inl ⟨timeout, hat⟩
          · exact .inl trivial
  | checkDeadline deadline w =>
    cases h with
    | check _ _ v =>
      rcases w.waiting 0 v with - | - | -
      · exact .inl trivial
      · exact .inl (condition_of_enters hat)
      · exact .inl hat
  | timerAt deadline k early =>
    cases h with
    | timerAt _ _ r =>
      cases r with
      | error e => exact .inl (at_timerFailed _ _ _)
      | ok _ =>
        cases k with
        | guard => cases early <;> exact .inl hat
        | loop w n =>
          cases early with
          | true => exact .inl ⟨deadline, hat⟩
          | false =>
            obtain ⟨timeout, rfl⟩ : ∃ timeout, c = _ := hat
            exact .inl ⟨rfl, rfl⟩
  | timerAfter timeout =>
    obtain rfl : c = _ := hat
    cases h
    dsimp only
    split
    · exact .inl ⟨rfl, rfl⟩
    · exact .inl trivial
  | earlyPoll w =>
    obtain ⟨deadline, hat⟩ := hat
    cases h with
    | pollTimer _ _ r =>
      rcases r with - | - | -
      · exact .inl (condition_of_enters hat)
      all_goals exact .inl trivial
  | recheck w n status =>
    cases h with
    | check _ _ v =>
      rcases w.waiting n v with - | - | -
      · exact .inl trivial
      · exact .inl hat
      · cases status
        · exact .inl hat
        · exact .inl trivial
  | act w timed =>
    cases h with
    | write _ _ v => cases (w.f v).2 <;> exact .inl trivial
  | pollNoWaiter k =>
    cases h with
    | pollTimer _ _ r =>
      cases r with
      | pending => exact .inl hat
      | ready r => exact .inl (at_resumeTimed hat _)
  | register timed k =>
    cases h with
    | register _ g =>
      cases g with
      | none => exact .inl (at_panicked _ _)
      | some g => cases timed <;> exact .inl hat
  | pollRegistered k g =>
    cases h with
    | pollTimer _ _ r => cases r <;> exact .inl hat
  | dropEarly k g r =>
    cases h
    exact .inl (at_resumeTimed hat _)
  | release | park =>
    cases h
    exact .inl hat
  | dropRegistration timed k g =>
    cases h
    cases timed <;> exact .inl hat
  | reacquire k =>
    cases h
    exact .inl (at_resume hat)
  | reacquireTimed k a =>
    cases h
    exact .inl hat
  | finalPoll k a =>
    cases h with
    | pollTimer _ _ r => cases r <;> exact .inl (at_resumeTimed hat _)
  | unwindRegistration k g => cases hat
  | finish | done | guardDone | unwindGuard | guardPanicked =>
    cases h
    exact .inr trivial

/-- User code reports nothing but a panic that leaves it. -/
lemma eq_unwound_of_user {maxInstant : ℕ} {p p' : Pc σ ρ} {d : Did σ ρ}
    (h : (code maxInstant p).Reports d p') (hu : User p) : d = .unwound := by
  cases p <;> cases hu <;> cases h
  rfl

/-- A Timer future belongs to a timed call. -/
lemma waits_of_timerAt {o : Call σ ρ} {deadline : ℕ} {k : Caller σ ρ} {early : Bool}
    (hat : At o (.timerAt deadline k early)) : o.Waits true k := by
  cases k with
  | guard => exact hat
  | loop w n =>
    cases early with
    | true => exact condition_of_enters hat
    | false =>
      obtain ⟨timeout, rfl⟩ := hat
      exact ⟨rfl, rfl⟩

/-- A check evaluates the predicate of the call. -/
lemma condition_of_checked {maxInstant : ℕ} {c : Call σ ρ} {p p' : Pc σ ρ} {v : σ}
    {a : Option Bool} (h : (code maxInstant p).Reports (.checked v a) p') (hat : At c p) :
    ∃ w n, c.condition = some w ∧ a = w.waiting n v := by
  cases p with
  | check w n =>
    cases h
    obtain rfl : c = _ := hat
    exact ⟨w, n, rfl, rfl⟩
  | checkFor timeout startedAt w =>
    cases h
    obtain rfl : c = _ := hat
    exact ⟨w, 0, rfl, rfl⟩
  | checkDeadline deadline w =>
    cases h
    exact ⟨w, 0, (condition_of_enters hat).1, rfl⟩
  | recheck w n status =>
    cases h
    exact ⟨w, n, hat.1, rfl⟩
  | notify n out => cases n <;> cases h
  | _ => cases h

/-- The calls of a blocking monitor. -/
def calls (maxInstant : ℕ) :
    Calls (program maxInstant : Program σ ρ (Pc σ ρ) (Choice σ ρ)) (Call σ ρ) where
  called := Choice.called
  At := At
  User := User
  idle := trivial
  reports := at_reports
  reports_user := by
    intro p d p' h hu
    cases p <;> cases hu <;> cases h
    trivial
  jump_call := by
    intro p x p' o h hx
    cases p <;> cases x <;> cases h <;> cases hx
    · exact at_begin _
    · exact at_guard_begin _
  jump_none := by
    intro p x p' o h hx hat
    cases p <;> cases x <;> cases h <;> cases hx <;> cases hat
  jump_user := by
    intro p x p' h hx hu
    cases p <;> cases x <;> cases h <;> cases hx <;> trivial

/-- The latest call of a thread was made. -/
lemma call_mem {Tid : Type} [DecidableEq Tid] {tr : List (Program.Label σ ρ (Choice σ ρ) Tid)}
    {t : Tid} {o : Call σ ρ} (h : lastCall Choice.called tr t = some o) :
    ∃ x : Choice σ ρ, x.called = some o ∧ .chose t x ∈ tr :=
  chose_mem_of_lastCall h

end QubitLock.Blocking
