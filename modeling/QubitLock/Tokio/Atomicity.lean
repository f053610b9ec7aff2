import QubitLock.Tokio.Broadcast
import QubitLock.Tokio.Outcome

set_option relaxedAutoImplicit false
set_option autoImplicit false

/-!
# Atomicity of the Tokio operations

A future of a Tokio monitor can be dropped at any await, and its steps interleave with those of all
other futures. Still every operation takes place as a whole or not at all: as long as a future can be
dropped, its closure has not run and it has notified nobody; and between the closure of a notifying
update and the selection of the waiters there is no await.

Closures may panic and predicates may be impure here.

## Main definitions

* `Tokio.visible` — the reports of a call that other tasks can see: its closures and selections.
* `Tokio.Op.Completed`, `Tokio.Op.Performed` — what a call that ran to its end, and one that
  returned, has done.
* `Tokio.Panicked` — what a call that panicked has done.

## Main results

* `Tokio.operations_atomic_async` — atomicity in every run.
-/

namespace QubitLock.Tokio

variable {σ ρ : Type}

/-- The report runs a closure on the protected value or selects waiters. -/
def isVisible : Did σ ρ → Bool
  | .didRead _ _ | .wrote _ _ _ | .tookOne _ | .tookAll _ => true
  | _ => false

/-- The closures that a call ran and its selections of waiters, newest first. -/
def visible (ds : List (Did σ ρ)) : List (Did σ ρ) :=
  ds.filter isVisible

@[simp] lemma visible_cons (d : Did σ ρ) (ds : List (Did σ ρ)) :
    visible (d :: ds) = if isVisible d then d :: visible ds else visible ds := by
  simp [visible, List.filter_cons]

/-- The closure of an operation that updates the value without waiting for a predicate. -/
def Op.update : Op σ ρ → Option (σ → σ × Option ρ)
  | .withWriteAsync f | .withWriteNotifyOneAsync f | .withWriteNotifyAllAsync f => some f
  | _ => none

/-- What an operation that ran to its end with result `out` has done: it ran its closure once, if it
came to it, and selected waiters after that, if it notifies. -/
def Op.Completed : Op σ ρ → Outcome ρ → List (Did σ ρ) → Prop
  | .withReadAsync f, out, es =>
    ∃ v r, f v = some r ∧ out = .value r ∧ es = [.didRead v (some r)]
  | .withWriteAsync f, out, es =>
    ∃ v r, (f v).2 = some r ∧ out = .value r ∧ es = [.wrote f v (some r)]
  | .withWriteNotifyOneAsync f, out, es =>
    ∃ v r g, (f v).2 = some r ∧ out = .value r ∧ es = [.tookOne g, .wrote f v (some r)]
  | .withWriteNotifyAllAsync f, out, es =>
    ∃ v r gs, (f v).2 = some r ∧ out = .value r ∧ es = [.tookAll gs, .wrote f v (some r)]
  | .notifyOne, out, es => ∃ g, out = .unit ∧ es = [.tookOne g]
  | .notifyAll, out, es => ∃ gs, out = .unit ∧ es = [.tookAll gs]
  | .waitWhileAsync w, out, es =>
    ∃ v r, (w.f v).2 = some r ∧ out = .value r ∧ es = [.wrote w.f v (some r)]
  | .waitWhileForAsync _ w, out, es | .waitWhileWithDeadlineAsync _ w, out, es =>
    (∃ v r, (w.f v).2 = some r ∧ out = .timed (.ok (.ready r)) ∧ es = [.wrote w.f v (some r)]) ∨
      ((out = .timed (.ok .timedOut) ∨ ∃ e, out = .timed (.error e)) ∧ es = [])

/-- What an operation that returned `out` has done. A future that was dropped has done nothing. -/
def Op.Performed (op : Op σ ρ) (out : Outcome ρ) (es : List (Did σ ρ)) : Prop :=
  (out = .cancelled ∧ op.entry.isSome ∧ es = []) ∨ op.Completed out es

/-- What an operation that panicked has done: a predicate or the registration panicked, or its
closure did, and the closure's writes stay. It has selected nobody. -/
def Panicked (es : List (Did σ ρ)) : Prop :=
  es = [] ∨ (∃ v, es = [.didRead v none]) ∨ ∃ f v, es = [.wrote f v none]

/-- A notifying update has run its closure and not selected anybody yet. -/
def Updated (op : Op σ ρ) (n : Notify) (out : Outcome ρ) (es : List (Did σ ρ)) : Prop :=
  ∃ f v r, op.entry = some (.write f (some n)) ∧ (f v).2 = some r ∧ out = .value r ∧
    es = [.wrote f v (some r)]

/-- What a call has done so far, at each program counter. -/
def Performs (op : Op σ ρ) (ds : List (Did σ ρ)) : Pc σ ρ → Prop
  | .finish out | .done out | .signal _ _ out => op.Completed out (visible ds)
  | .writeDone n out => Updated op n out (visible ds)
  | .notify n out =>
    (op.entry = none ∧ out = .unit ∧ visible ds = []) ∨ Updated op n out (visible ds)
  | .act w _ =>
    visible ds = [] ∧ ∃ n v ds', ds = .checked v (some false) :: ds' ∧ w.waiting n v = some false
  | .cancelRegistration _ _ | .cancelled _ => op.entry.isSome ∧ visible ds = []
  | .unwindGuard => Panicked (visible ds)
  | .idle => True
  | _ => visible ds = []

/-- A timed wait that gives up or fails has done nothing. -/
lemma completed_nothing {op : Op σ ρ} {w : Condition σ ρ} {out : Outcome ρ} {es : List (Did σ ρ)}
    (hw : op.condition = some w) (ht : op.timed = true)
    (hout : out = .timed (.ok .timedOut) ∨ ∃ e, out = .timed (.error e)) (h : es = []) :
    op.Completed out es := by
  cases op with
  | waitWhileForAsync | waitWhileWithDeadlineAsync => exact .inr ⟨hout, h⟩
  | waitWhileAsync => cases ht
  | _ => cases hw

/-- A wait that ran its action has done so once. -/
lemma completed_action {op : Op σ ρ} {w : Condition σ ρ} (hw : op.condition = some w) {v : σ} {r : ρ}
    (hr : (w.f v).2 = some r) :
    op.Completed (if op.timed then .timed (.ok (.ready r)) else .value r)
      [.wrote w.f v (some r)] := by
  cases op with
  | waitWhileAsync =>
    cases hw
    exact ⟨v, r, hr, rfl, rfl⟩
  | waitWhileForAsync | waitWhileWithDeadlineAsync =>
    cases hw
    exact .inl ⟨v, r, hr, rfl, rfl⟩
  | _ => cases hw

/-- A selection completes what notifies: one after the closure of an update, or one alone. -/
lemma completed_selection {op : Op σ ρ} {n : Notify} {out : Outcome ρ} {ds : List (Did σ ρ)}
    {d : Did σ ρ} (hat : op.notifies = some n)
    (hd : n = .one ∧ (∃ g, d = .tookOne g) ∨ n = .all ∧ ∃ gs, d = .tookAll gs)
    (hc : (op.entry = none ∧ out = .unit ∧ visible ds = []) ∨ Updated op n out (visible ds)) :
    op.Completed out (visible (d :: ds)) := by
  have hvisible : visible (d :: ds) = d :: visible ds := by
    rcases hd with ⟨-, g, rfl⟩ | ⟨-, gs, rfl⟩ <;> simp [isVisible]
  rw [hvisible]
  rcases hc with ⟨hentry, rfl, hnone⟩ | ⟨f, v, r, hentry, hr, rfl, hwrote⟩
  · rw [hnone]
    rcases hd with ⟨rfl, g, rfl⟩ | ⟨rfl, gs, rfl⟩
    · cases op <;> cases hat <;> first | exact ⟨g, rfl, rfl⟩ | cases hentry
    · cases op <;> cases hat <;> first | exact ⟨gs, rfl, rfl⟩ | cases hentry
  · rw [hwrote]
    rcases hd with ⟨rfl, g, rfl⟩ | ⟨rfl, gs, rfl⟩
    · cases op <;> cases hentry
      exact ⟨v, r, g, hr, rfl, rfl⟩
    · cases op <;> cases hentry
      exact ⟨v, r, gs, hr, rfl, rfl⟩

lemma performs_signalAll {op : Op σ ρ} {ds : List (Did σ ρ)} {out : Outcome ρ}
    (h : op.Completed out (visible ds)) (as : List ℕ) : Performs op ds (signalAll as out) := by
  cases as <;> exact h

lemma performs_entry (op : Op σ ρ) {ds : List (Did σ ρ)} (h : visible ds = []) (e : Entry σ ρ) :
    Performs op ds e.pc := by
  cases e <;> exact h

lemma performs_pollWait (op : Op σ ρ) {ds : List (Did σ ρ)} (h : visible ds = []) (timed : Bool)
    (w : Condition σ ρ) (n : ℕ) (g : Registration) : Performs op ds (pollWait timed w n g) := by
  cases timed <;> exact h

lemma performs_relocked {op : Op σ ρ} {ds : List (Did σ ρ)} {w : Condition σ ρ}
    {status : Option (Except TimeError WaitTimeoutStatus)}
    (hat : op.condition = some w ∧ op.timed = status.isSome) (h : visible ds = []) (n : ℕ) :
    Performs op ds (relocked w n status) := by
  rcases status with _ | e | status
  · exact h
  · exact completed_nothing hat.1 hat.2 (.inr ⟨e, rfl⟩) h
  · cases status <;> exact h

/-- **The primitives of a call keep the record of what it has done.**

**Proof sketch.** One case for each program counter. A call has done nothing visible before its own
closure, and a suspended one has not come to it. After the closure it can only make its selection, give
its signals and return. -/
lemma performs_reports {maxInstant : ℕ} {p p' : Pc σ ρ} {d : Did σ ρ} {op : Op σ ρ}
    {ds : List (Did σ ρ)} (h : (code maxInstant p).Reports d p') (hat : At op p)
    (hc : Performs op ds p) : Performs op (d :: ds) p' := by
  cases p with
  | idle | created | lockPending | waitPending | relockPending => cases h
  | lock e =>
    cases h with
    | tryLock => exact performs_entry op (by exact hc) e
    | contended => exact hc
  | read f =>
    have hnone : visible ds = [] := hc
    obtain rfl : op = _ := hat
    cases h with
    | read _ _ v =>
      cases hr : f v with
      | none => exact .inr (.inl ⟨v, by simp [isVisible, hnone]⟩)
      | some r => exact ⟨v, r, hr, rfl, by simp [isVisible, hnone]⟩
  | write f n =>
    have hnone : visible ds = [] := hc
    cases h with
    | write _ _ v =>
      cases hr : (f v).2 with
      | none => exact .inr (.inr ⟨f, v, by simp [isVisible, hnone]⟩)
      | some r =>
        have hwrote : visible (.wrote f v (some r) :: ds) = [.wrote f v (some r)] := by
          simp [isVisible, hnone]
        cases n with
        | none =>
          have hentry : op.entry = some (.write f none) := hat
          cases op <;> cases hentry
          exact ⟨v, r, hr, rfl, hwrote⟩
        | some n => exact ⟨f, v, r, hat, hr, rfl, hwrote⟩
  | writeDone n out =>
    cases h
    exact .inr hc
  | notify n out =>
    cases n with
    | one =>
      cases h with
      | takeOne _ g =>
        exact performs_signalAll (completed_selection hat (.inl ⟨rfl, g, rfl⟩) hc) _
    | all =>
      cases h with
      | takeAll _ gs =>
        exact performs_signalAll (completed_selection hat (.inr ⟨rfl, gs, rfl⟩) hc) _
  | signal a rest out =>
    cases h
    exact performs_signalAll (by exact hc) rest
  | check w n =>
    cases h with
    | check _ _ v =>
      rcases hv : w.waiting n v with _ | _ | _
      · exact .inl hc
      · exact ⟨hc, n, v, ds, rfl, hv⟩
      · exact hc
  | sample timeout w =>
    cases h
    exact hc
  | checkFor timeout startedAt w =>
    obtain rfl : op = _ := hat
    cases h with
    | check _ _ v =>
      rcases hv : w.waiting 0 v with _ | _ | _
      · exact .inl hc
      · exact ⟨hc, 0, v, ds, rfl, hv⟩
      · dsimp only
        split
        · exact .inr ⟨.inl rfl, hc⟩
        · split
          · exact hc
          · exact .inr ⟨.inr ⟨_, rfl⟩, hc⟩
  | checkDeadline deadline w =>
    cases h with
    | check _ _ v =>
      rcases hv : w.waiting 0 v with _ | _ | _
      · exact .inl hc
      · exact ⟨hc, 0, v, ds, rfl, hv⟩
      · exact hc
  | timerAt deadline w early =>
    have hwait : op.condition = some w ∧ op.timed = true := by
      cases early with
      | true =>
        obtain rfl : op = _ := hat
        exact ⟨rfl, rfl⟩
      | false =>
        obtain ⟨timeout, rfl⟩ := hat
        exact ⟨rfl, rfl⟩
    cases h with
    | timerAt _ _ r =>
      cases r with
      | error e => exact completed_nothing hwait.1 hwait.2 (.inr ⟨e, rfl⟩) hc
      | ok _ => cases early <;> exact hc
  | earlyPoll w =>
    obtain ⟨deadline, rfl⟩ := hat
    cases h with
    | pollTimer _ _ r =>
      rcases r with _ | e | _
      · exact hc
      · exact .inr ⟨.inr ⟨e, rfl⟩, hc⟩
      · exact .inr ⟨.inl rfl, hc⟩
  | register timed w n =>
    cases h with
    | register _ g =>
      cases g with
      | none => exact .inl hc
      | some g => exact hc
  | dropGuard timed w n g =>
    cases h
    exact performs_pollWait op (by exact hc) timed w n g
  | pollDeadline w n g =>
    cases h with
    | pollTimer _ _ r => cases r <;> exact hc
  | pollNotified timed w n g =>
    cases h with
    | pollNotified _ _ b => cases b <;> exact hc
  | dropRegistration w n g status =>
    cases h
    exact hc
  | relock w n status =>
    cases h with
    | tryLock => exact performs_relocked hat (by exact hc) n
    | contended => exact hc
  | deadlineReached w n =>
    cases h with
    | pollTimer _ _ r =>
      rcases r with _ | e | _
      · exact hc
      · exact completed_nothing hat.1 hat.2 (.inr ⟨e, rfl⟩) hc
      · exact hc
  | recheck w n reached =>
    cases h with
    | check _ _ v =>
      rcases hv : w.waiting n v with _ | _ | _
      · exact .inl hc
      · exact ⟨hc, n, v, ds, rfl, hv⟩
      · cases reached with
        | false => exact hc
        | true => exact completed_nothing hat.1 hat.2 (.inl rfl) hc
  | act w timed =>
    obtain ⟨hcond, rfl⟩ := hat
    have hnone : visible ds = [] := hc.1
    cases h with
    | write _ _ v =>
      cases hr : (w.f v).2 with
      | none => exact .inr (.inr ⟨w.f, v, by simp [isVisible, hnone]⟩)
      | some r => simpa [Performs, isVisible, hnone] using completed_action hcond hr
  | cancelRegistration timed g =>
    cases h
    exact hc
  | finish | done | cancelled | unwindGuard =>
    cases h
    trivial

/-- An operation that waits for a predicate is asynchronous. -/
lemma Op.entry_of_condition {op : Op σ ρ} {w : Condition σ ρ} (h : op.condition = some w) :
    op.entry.isSome := by
  cases op <;> first | rfl | cases h

/-- A poll keeps the record of what a future has done, and a future that is dropped has done
nothing. -/
lemma performs_jump {p p' : Pc σ ρ} {x : Choice σ ρ} {op : Op σ ρ} {ds : List (Did σ ρ)}
    (h : jump p x = some p') (hx : x.called = none) (hat : At op p) (hc : Performs op ds p) :
    Performs op ds p' := by
  have hsome : ∀ {e}, op.entry = some e → op.entry.isSome := fun he => by rw [he]; rfl
  cases p <;> cases x <;> cases h <;> cases hx
  case created.poll | lockPending.poll | relockPending.poll => exact hc
  case waitPending.poll timed w n g => exact performs_pollWait op (by exact hc) timed w n g
  case created.cancel e | lockPending.cancel e => exact ⟨hsome hat, hc⟩
  case waitPending.cancel | relockPending.cancel => exact ⟨Op.entry_of_condition hat.1, hc⟩

variable {Tid : Type} [DecidableEq Tid] {s₀ : Setup σ}
  {tr : List (Program.Label σ ρ (Choice σ ρ) Tid)} {c : Threads.Conf (Mem σ Tid) Tid (Pc σ ρ)}

/-- Every call has the record of what it has done. -/
lemma performs_of_run (maxInstant : ℕ) (h : (program maxInstant).Run s₀ tr c) (t : Tid) :
    c.pc t = .idle ∨ ∃ op, lastCall Choice.called tr t = some op ∧ At op (c.pc t) ∧
      Performs op (since Choice.called tr t) (c.pc t) := by
  refine (calls maxInstant).conduct (typed maxInstant Tid) (V := Performs) ?_ performs_jump
    performs_reports h t
  intro p x p' op hj hx
  cases p <;> cases x <;> cases hj <;> cases hx
  rename_i op
  cases op with
  | notifyOne | notifyAll => exact .inl ⟨rfl, rfl, rfl⟩
  | _ => rfl

/-- A task that makes a step has a record of what its call has done. -/
lemma performs_of_fires (maxInstant : ℕ) (h : (program maxInstant).Run s₀ tr c) {t : Tid}
    {d : Did σ ρ} {p : Pc σ ρ} (hf : (typed maxInstant Tid).Fires c.mem c.pc t d p) :
    ∃ op, lastCall Choice.called tr t = some op ∧ At op (c.pc t) ∧
      Performs op (since Choice.called tr t) (c.pc t) := by
  refine (performs_of_run maxInstant h t).resolve_left fun hidle => ?_
  have hreports : (code maxInstant (c.pc t)).Reports d p := hf.reports
  rw [hidle] at hreports
  cases hreports

/-- As long as a future can be dropped it has done nothing. -/
lemma visible_of_suspended (maxInstant : ℕ) (h : (program maxInstant).Run s₀ tr c) {t : Tid}
    (hs : Suspended (c.pc t) = true) : visible (since Choice.called tr t) = [] := by
  rcases performs_of_run maxInstant h t with hidle | ⟨op, -, -, hc⟩
  · rw [hidle] at hs
    cases hs
  · cases hp : c.pc t with
    | created | lockPending | waitPending | relockPending =>
      rw [hp] at hc
      exact hc
    | _ =>
      rw [hp] at hs
      cases hs

/-- A commit belongs to a call: it is its update, or the action of a wait that was told to stop
waiting in the same poll.

**Proof sketch.** The action of a wait comes after a check in the same poll, and the task holds the lock
from the check to the action, so the value is the one that was checked and nobody else has written. -/
lemma commit_of_run (maxInstant : ℕ) (h : (program maxInstant).Run s₀ tr c) {t : Tid}
    {f : σ → σ × Option ρ} {v : σ} {r : Option ρ} {p : Pc σ ρ}
    (hf : (typed maxInstant Tid).Fires c.mem c.pc t (.wrote f v r) p) :
    ∃ op, lastCall Choice.called tr t = some op ∧
      (op.update = some f ∨ ∃ w n, op.condition = some w ∧ f = w.f ∧
        w.waiting n v = some false ∧ DecidedInPoll tr t v) := by
  have hreports : (code maxInstant (c.pc t)).Reports (.wrote f v r) p := hf.reports
  obtain ⟨op, ho, hat, hc⟩ := performs_of_fires maxInstant h hf
  refine ⟨op, ho, ?_⟩
  rcases wrote_reports hreports with ⟨n, hp⟩ | ⟨w, timed, hp, rfl⟩
  · rw [hp] at hat
    have hentry : op.entry = some (.write f n) := hat
    refine .inl ?_
    cases op <;> cases hentry <;> rfl
  · have hheld : (typ (c.pc t)).holds = true := by rw [hp]; rfl
    rw [hp] at hat hc
    obtain ⟨-, n, v', ds', hds, hv'⟩ := hc
    -- the value has not changed since the check
    have hvalue : c.mem.value = v' :=
      (typed maxInstant Tid).value_eq_seen h hheld (by rw [hds]; rfl)
    obtain rfl : v = v' := hf.allows.2.1.trans hvalue
    obtain ⟨later, earlier, htr, hcommits, hown, hchose⟩ :=
      (typed maxInstant Tid).undisturbed h hheld hds
    refine .inr ⟨w, n, hat.1, rfl, hv', later, earlier, htr, hcommits, hown, fun x hmem => ?_⟩
    -- a task that holds the lock is not suspended
    obtain ⟨q, q', hq, hj⟩ := hchose x hmem
    cases q <;> cases x <;> cases hj <;> cases hq

/-- A call that returns has done what it should. -/
lemma performed_of_returned (maxInstant : ℕ) (h : (program maxInstant).Run s₀ tr c) {t : Tid}
    {out : Outcome ρ} {v : σ} {now : ℕ} {p : Pc σ ρ}
    (hf : (typed maxInstant Tid).Fires c.mem c.pc t (.returned out v now) p) :
    ∃ op, lastCall Choice.called tr t = some op ∧
      op.Performed out (visible (since Choice.called tr t)) := by
  have hreports : (code maxInstant (c.pc t)).Reports (.returned out v now) p := hf.reports
  obtain ⟨op, ho, -, hc⟩ := performs_of_fires maxInstant h hf
  refine ⟨op, ho, ?_⟩
  cases hp : c.pc t with
  | finish out' | done out' =>
    rw [hp] at hc hreports
    cases hreports
    exact .inr hc
  | cancelled timed =>
    rw [hp] at hc hreports
    cases hreports
    exact .inl ⟨rfl, hc⟩
  | notify n out' =>
    rw [hp] at hreports
    cases n <;> cases hreports
  | _ =>
    rw [hp] at hreports
    cases hreports

/-- A call that panics has run nothing but the closure that panicked. -/
lemma panicked_of_unwound (maxInstant : ℕ) (h : (program maxInstant).Run s₀ tr c) {t : Tid}
    {p : Pc σ ρ} (hf : (typed maxInstant Tid).Fires c.mem c.pc t .unwound p) :
    Panicked (visible (since Choice.called tr t)) := by
  have hreports : (code maxInstant (c.pc t)).Reports .unwound p := hf.reports
  obtain ⟨op, -, -, hc⟩ := performs_of_fires maxInstant h hf
  cases hp : c.pc t with
  | unwindGuard =>
    rw [hp] at hc
    exact hc
  | notify n out' =>
    rw [hp] at hreports
    cases n <;> cases hreports
  | _ =>
    rw [hp] at hreports
    cases hreports

/-- **The operations of a Tokio monitor are atomic, cancellation included.** In every state of every
run the protected value is the initial value folded through the closures that ran, and as long as a
future can be dropped it has run no closure and selected no waiter. Every closure runs on the fold of
the closures before it; a commit is the update of its call, or the action of a wait whose predicate
answered `false` on the same value in the same poll. A future that was dropped has done nothing; every
other operation that returned has done what it should, its closure once and after it, if it notifies,
one selection. An operation that panicked has run at most the closure that panicked and has selected
nobody.

**Proof sketch.** The value is the fold in every run (`value_eq_replay`), hence also in the shorter run
before a closure. What a call has done is read off its record (`performs_reports`) while it is
suspended, at its commit, at its return and when it is unwound. -/
theorem operations_atomic_async (maxInstant : ℕ) (s₀ : Setup σ)
    {tr : List (Program.Label σ ρ (Choice σ ρ) Tid)} {c : Threads.Conf (Mem σ Tid) Tid (Pc σ ρ)}
    (h : (program maxInstant).Run s₀ tr c) :
    c.mem.value = replay s₀.value tr ∧
    (∀ t, Suspended (c.pc t) = true → visible (since Choice.called tr t) = []) ∧
    (∀ t v r past, .did t (.didRead v r) :: past <:+ tr → v = replay s₀.value past) ∧
    (∀ t f v r past, .did t (.wrote f v r) :: past <:+ tr →
      v = replay s₀.value past ∧ ∃ op, lastCall Choice.called past t = some op ∧
        (op.update = some f ∨ ∃ w n, op.condition = some w ∧ f = w.f ∧
          w.waiting n v = some false ∧ DecidedInPoll past t v)) ∧
    (∀ t out v now past, .did t (.returned out v now) :: past <:+ tr →
      ∃ op, lastCall Choice.called past t = some op ∧
        op.Performed out (visible (since Choice.called past t))) ∧
    ∀ t past, .did t .unwound :: past <:+ tr → Panicked (visible (since Choice.called past t)) := by
  refine ⟨(typed maxInstant Tid).value_eq_replay h, fun t => visible_of_suspended maxInstant h,
    ?_, ?_, ?_, ?_⟩
  · intro t v r past hs
    obtain ⟨m, pc, p, hr, hf⟩ := (typed maxInstant Tid).fires_of_suffix h hs
    rw [hf.allows.2]
    exact (typed maxInstant Tid).value_eq_replay hr
  · intro t f v r past hs
    obtain ⟨m, pc, p, hr, hf⟩ := (typed maxInstant Tid).fires_of_suffix h hs
    refine ⟨?_, commit_of_run maxInstant hr hf⟩
    rw [hf.allows.2.1]
    exact (typed maxInstant Tid).value_eq_replay hr
  · intro t out v now past hs
    obtain ⟨m, pc, p, hr, hf⟩ := (typed maxInstant Tid).fires_of_suffix h hs
    exact performed_of_returned maxInstant hr hf
  · intro t past hs
    obtain ⟨m, pc, p, hr, hf⟩ := (typed maxInstant Tid).fires_of_suffix h hs
    exact panicked_of_unwound maxInstant hr hf

/-- A wait is suspended, an update increments the value and selects it, and the future of the wait is
dropped. -/
def updatedThenDropped : List (Threads.Event Bool (Option TimeError) (Choice ℕ Unit)
    (TimerEvent Bool)) :=
  [.choose false (.call (.waitWhileAsync
      ⟨fun _ v => some (v == 0), fun v => (v + 10, some ())⟩)),
    .choose false .poll, .run false none, .run false none, .run false none, .run false none,
    .run false none,
    .choose true (.call (.withWriteNotifyOneAsync fun v => (v + 1, some ()))), .choose true .poll,
    .run true none, .run true none, .run true none, .run true none, .run true none,
    .choose false .cancel, .run false none, .run false none]

/-- In the run of `updatedThenDropped` the wait that was selected and dropped has done nothing, and the
value is the result of the update alone. -/
theorem operations_atomic_async_dropped :
    ∃ tr past, ∃ c : Threads.Conf (Mem ℕ Bool) Bool (Pc ℕ Unit),
      (program 100).Run ⟨0, 0, false⟩ tr c ∧
      tr = .did false (.returned .cancelled 1 0) :: past ∧ c.mem.value = 1 ∧
      c.mem.value = replay 0 tr ∧ ∃ op, lastCall Choice.called past false = some op ∧
        op.Performed .cancelled (visible (since Choice.called past false)) := by
  obtain ⟨tr, c, hr, hp, -⟩ := (program 100).threads.exists_run_of_play
    ((program 100).start ⟨0, 0, false⟩) updatedThenDropped
    (p := fun s => lastReturn s.2 = some (false, .cancelled, 1, 0) ∧ s.1.mem.value = 1) (by decide)
  simp only [decide_eq_true_eq] at hp
  obtain ⟨hreturn, hvalue⟩ := hp
  obtain ⟨past, rfl⟩ := lastReturn_eq_some hreturn
  obtain ⟨hreplay, -, -, -, hreturned, -⟩ := operations_atomic_async 100 _ hr
  exact ⟨_, past, c, hr, rfl, hvalue, hreplay, hreturned _ _ _ _ _ (List.suffix_refl _)⟩

end QubitLock.Tokio
