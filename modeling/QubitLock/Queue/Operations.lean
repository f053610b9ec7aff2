import QubitLock.Blocking.Atomicity
import QubitLock.Library.Calls
import QubitLock.Queue.Program

set_option relaxedAutoImplicit false
set_option autoImplicit false

/-!
# The operations of the bounded queue

However the producers and consumers interleave, the queue is one queue: the operations take effect one
after the other, each at one moment between its call and its return, and in this order they are a row
of operations of the sequential queue. So items leave in the order in which they came, none is lost or
duplicated, there are never more than the capacity, and a closed queue takes no more.

## Main definitions

* `Queue.Inside` — what an operation has done at each place of its call.
* `Queue.Op.Done` — what an operation has done that is over.
* `Queue.history` — the operations of a run in the order in which they took effect.

## Main results

* `Queue.queue_linearizable` — the queue is linearizable.
* `Queue.queue_lawful` — its promises in every run.
-/

namespace QubitLock.Queue

open Blocking (At Commits)

variable {α : Type}

/-! ## Single operations -/

/-- The program counters inside an operation that hands out no guard. -/
def Busy : Blocking.Pc (QueueState α) (Res α) → Prop
  | .idle | .held | .heldUnwinding | .guardDone _ | .guardPanicked => False
  | _ => True

lemma busy_entry {e : Blocking.Entry (QueueState α) (Res α)} {op : Op α}
    (h : (Blocking.Call.op op.call).Enters e) : Busy e.pc := by
  cases e with
  | held => cases op <;> cases h
  | _ => trivial

lemma busy_wakeAll (as : List ℕ) (out : Outcome (Res α)) : Busy (Blocking.wakeAll as out) := by
  cases as <;> trivial

/-- The guard waits of an operation are those of its loop. -/
lemma loop_of_waits {op : Op α} {timed : Bool} {k : Blocking.Caller (QueueState α) (Res α)}
    (h : (Blocking.Call.op op.call).Waits timed k) : ∃ w n, k = .loop w n := by
  cases k with
  | loop w n => exact ⟨w, n, rfl⟩
  | guard => cases h.1

lemma busy_resume {op : Op α} {timed : Bool} {k : Blocking.Caller (QueueState α) (Res α)}
    (h : (Blocking.Call.op op.call).Waits timed k) : Busy (Blocking.resume k) := by
  obtain ⟨w, n, rfl⟩ := loop_of_waits h
  trivial

lemma busy_resumeTimed {op : Op α} {timed : Bool}
    {k : Blocking.Caller (QueueState α) (Res α)} (h : (Blocking.Call.op op.call).Waits timed k)
    (r : Except TimeError WaitTimeoutStatus) : Busy (Blocking.resumeTimed k r) := by
  obtain ⟨w, n, rfl⟩ := loop_of_waits h
  cases r <;> trivial

lemma busy_timerFailed {op : Op α} {timed : Bool}
    {k : Blocking.Caller (QueueState α) (Res α)} (h : (Blocking.Call.op op.call).Waits timed k)
    (e : TimeError) : Busy (Blocking.timerFailed k e) := by
  obtain ⟨w, n, rfl⟩ := loop_of_waits h
  trivial

lemma busy_panicked {op : Op α} {timed : Bool}
    {k : Blocking.Caller (QueueState α) (Res α)} (h : (Blocking.Call.op op.call).Waits timed k) :
    Busy (Blocking.panicked k) := by
  obtain ⟨w, n, rfl⟩ := loop_of_waits h
  trivial

/-- The call of an operation goes on until it returns or panics, and hands out no guard. -/
lemma busy_reports {maxInstant : ℕ} {op : Op α} {p p' : Blocking.Pc (QueueState α) (Res α)}
    {d : Did (QueueState α) (Res α)} (h : (Blocking.code maxInstant p).Reports d p')
    (hat : At (.op op.call) p) (hp : Busy p) (hret : ∀ out v now, d ≠ .returned out v now)
    (hpanic : d ≠ .unwound) : Busy p' := by
  cases p with
  | finish | done =>
    cases h
    exact absurd rfl (hret _ _ _)
  | unwindGuard =>
    cases h
    exact absurd rfl hpanic
  | idle | held | heldUnwinding | guardDone | guardPanicked => cases hp
  | guardRead | guardWrite | timerAfter => cases op <;> cases hat
  | acquire e =>
    cases h
    exact busy_entry hat
  | notify n out => cases n <;> cases h <;> exact busy_wakeAll _ _
  | signal =>
    cases h
    exact busy_wakeAll _ _
  | reacquire k =>
    cases h
    exact busy_resume hat
  | dropEarly k g r =>
    cases h
    exact busy_resumeTimed hat _
  | pollNoWaiter k =>
    cases h with
    | pollTimer _ _ r =>
      cases r with
      | pending => trivial
      | ready r => exact busy_resumeTimed hat _
  | finalPoll k a =>
    cases h with
    | pollTimer _ _ r => cases r <;> exact busy_resumeTimed hat _
  | timerAt deadline k early =>
    cases h with
    | timerAt _ _ r =>
      cases r with
      | error e => exact busy_timerFailed (Blocking.waits_of_timerAt hat) e
      | ok _ => cases k <;> cases early <;> trivial
  | register timed k =>
    cases h with
    | register _ g =>
      cases g with
      | none => exact busy_panicked hat
      | some g => cases timed <;> trivial
  | deadlineAfter | read | write | check | checkFor | checkDeadline | recheck | act =>
    cases h
    dsimp only
    repeat' split
    all_goals trivial
  | earlyPoll | pollRegistered =>
    cases h
    dsimp only
    split <;> trivial
  | dropRegistration timed k g =>
    cases h
    cases timed <;> trivial
  | unwindRegistration => cases hat
  | _ =>
    cases h
    trivial

/-- What an operation has done at each place of its call, where `ds` are its reports: it has committed
what it should, and nothing if it panics. -/
structure Inside (op : Op α) (ds : List (Did (QueueState α) (Res α)))
    (p : Blocking.Pc (QueueState α) (Res α)) : Prop where
  location : At (.op op.call) p
  commits : Commits (.op op.call) ds p
  busy : Busy p
  unwinds : p = .unwindGuard → writes ds = []

/-- An operation begins. -/
lemma inside_begin (op : Op α) : Inside op [] op.call.begin := by
  cases op <;> exact ⟨Blocking.at_begin _, rfl, trivial, fun h => by cases h⟩

lemma wakeAll_ne_unwindGuard (as : List ℕ) (out : Outcome (Res α)) :
    (Blocking.wakeAll as out : Blocking.Pc (QueueState α) (Res α)) ≠ .unwindGuard := by
  cases as <;> simp [Blocking.wakeAll]

/-- The actions of the operations do not panic, so that an operation which panics has committed
nothing.

**Proof sketch.** By cases on the place. Only a check and an action can unwind; before a check nothing
was written, and the action of an operation always has a result. -/
lemma writes_of_unwind {maxInstant : ℕ} {op : Op α} {ds : List (Did (QueueState α) (Res α))}
    {p p' : Blocking.Pc (QueueState α) (Res α)} {d : Did (QueueState α) (Res α)}
    (hat : At (.op op.call) p) (hc : Commits (.op op.call) ds p)
    (h : (Blocking.code maxInstant p).Reports d p') (hp : p' = .unwindGuard) :
    writes (d :: ds) = [] := by
  cases p with
  | write f n =>
    cases op with
    | close =>
      cases n with
      | none =>
        obtain rfl : f = action QueueState.close := by
          have heq : Blocking.Call.op (Blocking.Op.withWrite (action QueueState.close)) =
            .op (.withWrite f) := hat
          cases heq
          rfl
        cases h
        cases hp
      | some n => cases n <;> cases hat
    | _ => rcases n with _ | _ | _ <;> cases hat
  | act w timed =>
    have hw : op.waits = some w := by
      rw [← op.condition_call]
      exact hat.1
    cases op with
    | close => cases hw
    | _ =>
      cases hw
      cases h
      cases hp
  | guardWrite => cases op <;> cases hat
  | notify n out =>
    cases n
    all_goals
      cases h
      exact absurd hp (wakeAll_ne_unwindGuard _ _)
  | signal a rest out =>
    cases h
    exact absurd hp (wakeAll_ne_unwindGuard _ _)
  | notifyRelease | finish | done | guardDone | guardPanicked | unwindGuard =>
    cases h
    cases hp
  | idle | held | heldUnwinding => cases h
  | _ =>
    have hw : writes ds = [] := hc
    cases h
    simp [Did.isWrite, hw]

/-- **One step of an operation**: it goes on inside its call, or the call returns, or it panics. -/
lemma Inside.reports {maxInstant : ℕ} {op : Op α} {ds : List (Did (QueueState α) (Res α))}
    {p p' : Blocking.Pc (QueueState α) (Res α)} {d : Did (QueueState α) (Res α)} (hi : Inside op ds p)
    (h : (Blocking.code maxInstant p).Reports d p') :
    Inside op (d :: ds) p' ∧ (∀ out v now, d ≠ .returned out v now) ∧ d ≠ .unwound ∨
    (∃ out v now, d = .returned out v now ∧ (Blocking.Call.op op.call).Committed out (writes ds)) ∨
    d = .unwound ∧ writes ds = [] := by
  by_cases hr : ∃ out v now, d = .returned out v now
  · obtain ⟨out, v, now, rfl⟩ := hr
    refine .inr (.inl ⟨out, v, now, rfl, ?_⟩)
    have hc := hi.commits
    cases p with
    | finish out' | done out' =>
      cases h
      exact hc
    | notify n out => cases n <;> cases h
    | _ => cases h
  · by_cases hu : d = .unwound
    · subst hu
      refine .inr (.inr ⟨rfl, hi.unwinds ?_⟩)
      cases p with
      | unwindGuard => rfl
      | notify n out => cases n <;> cases h
      | _ => cases h
    · have hret : ∀ out v now, d ≠ .returned out v now := fun out v now hd => hr ⟨out, v, now, hd⟩
      have hbusy := busy_reports h hi.location hi.busy hret hu
      refine .inl ⟨⟨?_, Blocking.commits_reports h hi.location hi.commits, hbusy, ?_⟩, hret, hu⟩
      · rcases Blocking.at_reports h hi.location with hat | huser
        · exact hat
        · cases p' with
          | unwindGuard => trivial
          | idle | held | heldUnwinding => cases hbusy
          | _ => cases huser
      · exact writes_of_unwind hi.location hi.commits h

/-- The call of an operation has returned `out`, and it has committed what it should: an operation that
returns the result of its action has run it exactly once, and one that timed out or failed has not. -/
def Op.Returned (op : Op α) (ds : List (Did (QueueState α) (Res α))) (out : Outcome (Res α)) : Prop :=
  (∃ v now, .returned out v now ∈ ds) ∧ (Blocking.Call.op op.call).Committed out (writes ds)

/-- What an operation has done that is over: its call has returned, and it has notified all if it had
to; or it has panicked without an effect. -/
def Op.Done (op : Op α) (ds : List (Did (QueueState α) (Res α))) : Prop :=
  (∃ out, op.Returned ds out ∧ (op.after out = some .all → ∃ gs, .tookAll gs ∈ ds)) ∨
    .unwound ∈ ds ∧ writes ds = []

/-- The places of the notification of an operation. -/
def Notifying (ds : List (Did (QueueState α) (Res α))) (p : Blocking.Pc (QueueState α) (Res α)) : Prop :=
  p = .notify .all .unit ∨
    (∃ gs, .tookAll gs ∈ ds) ∧ (p = .done .unit ∨ ∃ a rest, p = .signal a rest .unit)

/-- What an operation has done at each place. -/
def Within (op : Op α) (ds : List (Did (QueueState α) (Res α))) : Pc α → Prop
  | .idle => op.Done ds
  | .within op' p => op' = op ∧ Inside op ds p
  | .ready op' n => op' = op ∧ n = .all ∧ ∃ out, op.Returned ds out ∧ op.after out = some .all
  | .notifying op' p => op' = op ∧ (∃ out, op.Returned ds out ∧ op.after out = some .all) ∧ Notifying ds p

/-- The operations send no notification but to all. -/
lemma Op.after_eq_all {op : Op α} {out : Outcome (Res α)} {n : Notify} (h : op.after out = some n) :
    n = .all := by
  unfold Op.after at h
  split at h <;> cases h <;> rfl

/-- A report that writes nothing keeps what was committed. -/
lemma Op.Returned.cons {op : Op α} {ds : List (Did (QueueState α) (Res α))} {out : Outcome (Res α)}
    {d : Did (QueueState α) (Res α)} (h : op.Returned ds out) (hd : d.isWrite = false) :
    op.Returned (d :: ds) out := by
  obtain ⟨⟨v, now, hmem⟩, hc⟩ := h
  refine ⟨⟨v, now, List.mem_cons_of_mem _ hmem⟩, ?_⟩
  rw [writes_cons, if_neg (by simp [hd])]
  exact hc

/-- One step of a notification. -/
lemma notifying_reports {maxInstant : ℕ} {ds : List (Did (QueueState α) (Res α))}
    {p p' : Blocking.Pc (QueueState α) (Res α)} {d : Did (QueueState α) (Res α)} (hn : Notifying ds p)
    (h : (Blocking.code maxInstant p).Reports d p') :
    d.isWrite = false ∧ d ≠ .unwound ∧
      ((∀ out v now, d ≠ .returned out v now) ∧ Notifying (d :: ds) p' ∨
        (∃ out v now, d = .returned out v now) ∧ ∃ gs, .tookAll gs ∈ ds) := by
  have hwake : ∀ as, (∃ gs, .tookAll gs ∈ d :: ds) →
      Notifying (d :: ds) (Blocking.wakeAll as .unit) := by
    intro as htook
    cases as with
    | nil => exact .inr ⟨htook, .inl rfl⟩
    | cons a rest => exact .inr ⟨htook, .inr ⟨a, rest, rfl⟩⟩
  rcases hn with rfl | ⟨⟨gs, hgs⟩, rfl | ⟨a, rest, rfl⟩⟩
  · cases h
    exact ⟨rfl, by simp, .inl ⟨by simp, hwake _ ⟨_, List.mem_cons_self⟩⟩⟩
  · cases h
    exact ⟨rfl, by simp, .inr ⟨⟨_, _, _, rfl⟩, gs, hgs⟩⟩
  · cases h
    exact ⟨rfl, by simp, .inl ⟨by simp, hwake _ ⟨gs, List.mem_cons_of_mem _ hgs⟩⟩⟩

variable {Tid : Type} [DecidableEq Tid] {maxInstant : ℕ} {s₀ : Setup (QueueState α)}
  {tr : List (Label α Tid)} {c : Threads.Conf (Mem (QueueState α) Tid) Tid (Pc α)}

/-- A primitive of a client that fires in a run is one of the monitor. -/
lemma reports_of_run (h : Run maxInstant s₀ tr c) {t : Tid} {fault : Option TimeError}
    {q k : Blocking.Pc (QueueState α) (Res α)} {d : Did (QueueState α) (Res α)}
    (hq : Client.outer (Blocking.program maxInstant) (c.pc t) = q)
    (hf : (Blocking.code maxInstant q).fire c.mem t fault = some (d, k)) :
    (Blocking.typed maxInstant Tid).Fires c.mem
      (fun u => Client.outer (Blocking.program maxInstant) (c.pc u)) t d k := by
  have hr := (client α maxInstant).run h
  refine (Blocking.typed maxInstant Tid).fires (o := fault)
    ((Blocking.typed maxInstant Tid).owned hr) ?_
  show (Blocking.code maxInstant (Client.outer (Blocking.program maxInstant) (c.pc t))).fire _ _ _ = _
  rw [hq]
  exact hf

/-- **Every operation is where its reports say.**

**Proof sketch.** By the rule for calls. The call of the monitor keeps its own record (`Inside`), and
when it returns its result and its commit are those of the operation. Between the two calls, and in the
notification, the operation has returned already and only its selection is left. -/
theorem within_of_run (h : Run maxInstant s₀ tr c) (t : Tid) {op : Op α}
    {ds : List (Did (QueueState α) (Res α))} (hk : Threads.callOf called t tr = some (op, ds)) :
    Within op ds (c.pc t) := by
  refine Threads.Run.calls (V := Within) ?_ ?_ ?_ h t hk
  · intro p x p' op hj hx
    cases x with
    | notify => cases hx
    | op o =>
      cases hx
      cases p with
      | idle =>
        cases hj
        exact ⟨rfl, inside_begin _⟩
      | _ => cases hj
  · intro p x p' op ds hj hx hw
    cases x with
    | op o => cases hx
    | notify n =>
      cases p with
      | ready op' n' =>
        obtain ⟨rfl, rfl, hout⟩ := hw
        simp only [client, Client.program, Program.threads, Client.jump] at hj
        split at hj
        · cases hj
          exact ⟨rfl, hout, .inl rfl⟩
        · cases hj
      | _ => cases hj
  · intro tr m pc t fault d p op ds hr hf hw
    rcases (client α maxInstant).fire_cases hf with ⟨op', q, k, hq, hk, rfl⟩ | ⟨op', q, k, hq, hk, rfl⟩
    · rw [hq] at hw
      obtain ⟨rfl, hi⟩ := hw
      have hfires := reports_of_run hr (t := t) (q := q) (by simp only [hq]; rfl) hk
      have hreports := hfires.reports
      simp only [hq] at hreports
      rcases hi.reports hreports with ⟨hin, hret, hpanic⟩ | ⟨out, v, now, rfl, hc⟩ | ⟨rfl, hnone⟩
      · rw [Did.continues_of_ne hret hpanic]
        exact ⟨rfl, hin⟩
      · have hdone : op'.Returned (.returned out v now :: ds) out :=
          ⟨⟨v, now, List.mem_cons_self⟩, hc⟩
        simp only [Did.continues, Client.resume]
        split
        · rename_i hnone
          refine .inl ⟨out, hdone, fun hall => ?_⟩
          rw [show op'.after out = none from hnone] at hall
          cases hall
        · rename_i n hn
          obtain rfl := Op.after_eq_all hn
          exact ⟨rfl, rfl, out, hdone, hn⟩
      · exact .inr ⟨List.mem_cons_self, hnone⟩
    · rw [hq] at hw
      obtain ⟨rfl, ⟨out, hdone, hall⟩, hn⟩ := hw
      have hfires := reports_of_run hr (t := t) (q := q) (by simp only [hq]; rfl) hk
      have hreports := hfires.reports
      simp only [hq] at hreports
      obtain ⟨hwrite, hpanic, ⟨hret, hn'⟩ | ⟨⟨out', v, now, rfl⟩, gs, hgs⟩⟩ :=
        notifying_reports hn hreports
      · rw [Did.continues_of_ne hret hpanic]
        exact ⟨rfl, ⟨out, hdone.cons hwrite, hall⟩, hn'⟩
      · exact .inl ⟨out, hdone.cons rfl, fun _ => ⟨gs, List.mem_cons_of_mem _ hgs⟩⟩

/-- A thread that is in an operation has called it, and is where its reports say. -/
lemma exists_within (h : Run maxInstant s₀ tr c) {t : Tid} (ht : c.pc t ≠ .idle) :
    ∃ op ds, Threads.callOf called t tr = some (op, ds) ∧ Within op ds (c.pc t) := by
  have hcall : c.pc t = .idle ∨ ∃ op ds, Threads.callOf called t tr = some (op, ds) := by
    refine Threads.Run.exists_call (S := (· = ClientPc.idle)) (fun _ => rfl) ?_ ?_ h t
    · rintro p x p' hj rfl
      cases x with
      | op o => rfl
      | notify n => cases hj
    · rintro m t fault p d p' hf rfl
      cases hf
  obtain ⟨op, ds, hcall⟩ := hcall.resolve_left ht
  exact ⟨op, ds, hcall, within_of_run h t hcall⟩

/-! ## The order in which the operations take effect -/

/-- The operations of a run in the order in which they took effect, newest first. -/
def history : List (Label α Tid) → List (Op α × Res α)
  | [] => []
  | .did t (.wrote _ _ (some r)) :: tr =>
    match Threads.callOf called t tr with
    | some (op, _) => (op, r) :: history tr
    | none => history tr
  | _ :: tr => history tr

/-- The call of an operation is the latest call of its thread on the monitor.

**Proof sketch.** Induction on the run. The client begins an operation with the call, and a thread that
is inside an operation makes no other call before its notification. -/
lemma lastCall_of_within (h : Run maxInstant s₀ tr c) {t : Tid} {op : Op α}
    {q : Blocking.Pc (QueueState α) (Res α)} (hq : c.pc t = .within op q) :
    lastCall Blocking.Choice.called ((client α maxInstant).outerTrace tr) t = some (.op op.call) := by
  revert t op q
  refine Threads.Run.rule (I := fun tr _ pc => ∀ {t op q}, pc t = .within op q →
    lastCall Blocking.Choice.called ((client α maxInstant).outerTrace tr) t = some (.op op.call))
    (client α maxInstant).program.threads ?_ ?_ ?_ ?_ h
  · intro t op q hq
    cases hq
  · intro tr m pc t fault d p hr hi hf u op q hq
    show lastCall _ (.did t d :: (client α maxInstant).outerTrace tr) u = _
    rw [lastCall_did]
    by_cases hut : u = t
    · subst hut
      rw [Function.update_self] at hq
      rcases (client α maxInstant).fire_cases hf with ⟨op', q', k, hq', -, rfl⟩ |
        ⟨op', q', k, hq', -, rfl⟩
      · refine hi (q := q') ?_
        rw [hq']
        cases d with
        | returned out v now =>
          simp only [Did.continues, Client.resume] at hq
          split at hq <;> cases hq
        | unwound => cases hq
        | _ =>
          cases hq
          rfl
      · cases d <;> cases hq
    · rw [Function.update_of_ne hut] at hq
      exact hi hq
  · intro tr m pc t x p hr hi hj u op q hq
    show lastCall _ (.chose t ((client α maxInstant).calls x) :: (client α maxInstant).outerTrace tr) u = _
    by_cases hut : u = t
    · subst hut
      rw [Function.update_self] at hq
      subst hq
      rw [lastCall_chose_self]
      cases x with
      | op o =>
        cases hp : pc u with
        | idle =>
          rw [hp] at hj
          cases hj
          rfl
        | _ =>
          rw [hp] at hj
          cases hj
      | notify n =>
        cases hp : pc u with
        | ready op' n' =>
          rw [hp] at hj
          simp only [client, Client.program, Program.threads, Client.jump] at hj
          split at hj
          · rename_i hn
            cases n' <;> cases hj
          · cases hj
        | _ =>
          rw [hp] at hj
          cases hj
    · rw [Function.update_of_ne hut] at hq
      rw [lastCall_chose_ne (Ne.symm hut)]
      exact hi hq
  · intro tr m pc e m' b hr hi he u op q hq
    exact hi hq

/-- **An operation takes effect when it may**, and then it does what it does on its own.

**Proof sketch.** The call of the operation is the latest call of its thread on the monitor, so what
commits is its update or the action of its wait. A wait acts on a value on which its predicate was just
checked, and the predicate is the negation of what admits the operation. -/
lemma commit_of_run (h : Run maxInstant s₀ tr c) {t : Tid} {op : Op α}
    {q k : Blocking.Pc (QueueState α) (Res α)} {f : QueueState α → QueueState α × Option (Res α)}
    {v : QueueState α} {r : Option (Res α)} (hq : c.pc t = .within op q)
    (hf : (Blocking.typed maxInstant Tid).Fires c.mem
      (fun u => Client.outer (Blocking.program maxInstant) (c.pc u)) t (.wrote f v r) k) :
    v = c.mem.value ∧ c.mem.value.admits op = true ∧ (f v).1 = (c.mem.value.act op).1 ∧
      r = some (c.mem.value.act op).2 := by
  obtain ⟨-, rfl, rfl⟩ := hf.allows
  obtain ⟨o, ho, hcommit⟩ := Blocking.commit_of_run maxInstant ((client α maxInstant).run h) hf
  rw [lastCall_of_within h hq] at ho
  cases ho
  refine ⟨rfl, ?_⟩
  rcases hcommit with hupdate | ⟨w, hw, rfl, n, later, earlier, hfalse, -⟩
  · cases op with
    | close =>
      cases hupdate
      exact ⟨rfl, rfl, rfl⟩
    | _ => cases hupdate
  · rw [op.condition_call] at hw
    cases op with
    | push item =>
      cases hw
      exact ⟨by simpa [pushing, Condition.ofReady, QueueState.admits] using hfalse, rfl, rfl⟩
    | pop =>
      cases hw
      exact ⟨by simpa [popping, Condition.ofReady, QueueState.admits] using hfalse, rfl, rfl⟩
    | popFor timeout =>
      cases hw
      exact ⟨by simpa [popping, Condition.ofReady, QueueState.admits] using hfalse, rfl, rfl⟩
    | close => cases hw

/-- **An effect belongs to an operation**, which had none before, and it is the effect that the
operation has on its own. -/
lemma effect_of_run (h : Run maxInstant s₀ tr c) {t : Tid} {fault : Option TimeError}
    {f : QueueState α → QueueState α × Option (Res α)} {v : QueueState α} {r : Option (Res α)} {p : Pc α}
    (hf : ((client α maxInstant).code (c.pc t)).fire c.mem t fault = some (.wrote f v r, p)) :
    ∃ op ds q k, Threads.callOf called t tr = some (op, ds) ∧ writes ds = [] ∧ Inside op ds q ∧
      (Blocking.code maxInstant q).Reports (.wrote f v r) k ∧ p = .within op k ∧ v = c.mem.value ∧
      c.mem.value.apply op = some ((f v).1, (op, (c.mem.value.act op).2)) ∧
      r = some (c.mem.value.act op).2 := by
  have ht : c.pc t ≠ .idle := by
    intro hidle
    rw [hidle] at hf
    cases hf
  obtain ⟨op', ds, hcall, hw⟩ := exists_within h ht
  rcases (client α maxInstant).fire_cases hf with ⟨op, q, k, hq, hk, hp⟩ | ⟨op, q, k, hq, hk, -⟩
  · rw [hq] at hw
    obtain ⟨rfl, hi⟩ := hw
    have hfires := reports_of_run h (t := t) (q := q) (by rw [hq]; rfl) hk
    obtain ⟨rfl, hadmits, hact, hr⟩ := commit_of_run h hq hfires
    have hreports := hfires.reports
    simp only [hq] at hreports
    refine ⟨op, ds, q, k, hcall, ?_, hi, hreports, hp, rfl, ?_, hr⟩
    · have hc := hi.commits
      clear hfires hk hq
      cases q with
      | write => exact hc
      | act => exact hc.1
      | guardWrite => cases op <;> cases hi.location
      | notify n out => cases n <;> cases hreports
      | _ => cases hreports
    · simp only [QueueState.apply, hadmits, if_true, hact]
  · rw [hq] at hw
    obtain ⟨rfl, -, hn⟩ := hw
    have hfires := reports_of_run h (t := t) (q := q) (by rw [hq]; rfl) hk
    have hreports := hfires.reports
    simp only [hq] at hreports
    cases (notifying_reports hn hreports).1

/-- A report that writes nothing is not in the history. -/
lemma history_of_not_write {t : Tid} {d : Did (QueueState α) (Res α)} (hd : d.isWrite = false)
    (tr : List (Label α Tid)) : history (.did t d :: tr) = history tr := by
  cases d with
  | wrote => cases hd
  | _ => rfl

/-- An effect in the history. -/
lemma history_wrote {t : Tid} {op : Op α} {ds : List (Did (QueueState α) (Res α))}
    (hcall : Threads.callOf called t tr = some (op, ds))
    (f : QueueState α → QueueState α × Option (Res α)) (v : QueueState α) (r : Res α) :
    history (.did t (.wrote f v (some r)) :: tr) = (op, r) :: history tr := by
  simp only [history, hcall]

/-- **The history of a run is a row of operations**, which leads to the state of the queue.

**Proof sketch.** Induction on the run. A write of the monitor is the effect of the operation that its
thread is in, possible in the state at that moment (`effect_of_run`), and nothing else changes the
state. -/
theorem row_of_run (h : Run maxInstant s₀ tr c) : Row s₀.value (history tr) c.mem.value := by
  refine Threads.Run.rule (I := fun tr m _ => Row s₀.value (history tr) m.value)
    (client α maxInstant).program.threads ?_ ?_ ?_ ?_ h
  · exact .nil
  · intro tr m pc t fault d p hr hi hf
    cases hd : d.isWrite with
    | false =>
      rw [history_of_not_write hd]
      show Row s₀.value (history tr) (m.effect t d).value
      rw [value_of_isWrite hd]
      exact hi
    | true =>
      cases d with
      | wrote f v r =>
        obtain ⟨op, ds, q, k, hcall, -, -, -, -, -, happly, rfl⟩ := effect_of_run hr hf
        rw [history_wrote hcall]
        exact .cons op hi happly
      | _ => cases hd
  · intro tr m pc t x p hr hi hj
    exact hi
  · intro tr m pc e m' b hr hi he
    rw [(Mem.timer_frame he).value]
    exact hi

/-- **The queue is linearizable.** In every state of every run the operations that took effect so far
are, in this order and with their results, a row of operations of the sequential queue that leads to
the protected state. Each effect belongs to the operation that its thread is in, which had none before.
An operation that is over has returned the result of its one effect (`pop_for` may have timed out or
failed without one) and has notified all if it changed the queue; or it has panicked without an
effect.

**Proof sketch.** The effects are the writes of the monitor, and the history reads them off the trace.
Each belongs to the call in progress and is its first (`effect_of_run`); an operation that is over is
where its reports say (`within_of_run`). -/
theorem queue_linearizable (h : Run maxInstant s₀ tr c) :
    Row s₀.value (history tr) c.mem.value ∧
    (∀ t f v r past, .did t (.wrote f v r) :: past <:+ tr →
      ∃ op ds res, Threads.callOf called t past = some (op, ds) ∧ writes ds = [] ∧ r = some res ∧
        history (.did t (.wrote f v r) :: past) = (op, res) :: history past) ∧
    ∀ t op ds, Threads.callOf called t tr = some (op, ds) → c.pc t = .idle → op.Done ds := by
  refine ⟨row_of_run h, ?_, ?_⟩
  · intro t f v r past hs
    obtain ⟨⟨m, pc⟩, e, c₁, hr, hstep⟩ := Lts.Run.exists_step h hs
    rcases (client α maxInstant).program.threads.step_eq_some hstep with
      ⟨u, fault, d, p, -, hf, -, hl⟩ | ⟨_, _, _, -, -, -, hl⟩ | ⟨_, _, _, -, -, -, hl⟩
    · cases hl
      obtain ⟨op, ds, q, k, hcall, hnone, -, -, -, -, -, rfl⟩ := effect_of_run hr hf
      exact ⟨op, ds, _, hcall, hnone, rfl, history_wrote hcall f v _⟩
    · cases hl
    · cases hl
  · intro t op ds hcall hidle
    have hw := within_of_run h t hcall
    rw [hidle] at hw
    exact hw

/-- The scenario of `main` in `examples/bounded_queue.rs`, with `pop` as its consumer: it finds the
queue empty and waits, a producer adds an item and wakes it, and after closing the item of a second
`push` is given back. -/
def mainRun : List (Threads.Event Bool (Option TimeError) (ClientChoice (Op ℕ)) (TimerEvent Bool)) :=
  .choose false (.op .pop) :: List.replicate 4 (.run false none) ++
    .choose true (.op (.push 7)) :: List.replicate 4 (.run true none) ++
    .choose true (.notify .all) :: List.replicate 3 (.run true none) ++
    List.replicate 6 (.run false none) ++
    .choose false (.notify .all) :: List.replicate 2 (.run false none) ++
    .choose true (.op .close) :: List.replicate 3 (.run true none) ++
    .choose true (.notify .all) :: List.replicate 2 (.run true none) ++
    .choose true (.op (.push 8)) :: List.replicate 4 (.run true none)

theorem queue_linearizable_main :
    ∃ (tr : List (Label ℕ Bool)) (c : Threads.Conf (Mem (QueueState ℕ) Bool) Bool (Pc ℕ)),
      Run 100 ⟨.new 1 (by decide), 0, false⟩ tr c ∧
      history tr = [(.push 8, .pushed (.error 8)), (.close, .closed), (.pop, .popped (some 7)),
        (.push 7, .pushed (.ok ()))] ∧
      Row (.new 1 (by decide)) (history tr) c.mem.value ∧
      ∀ t op ds, Threads.callOf called t tr = some (op, ds) → c.pc t = .idle → op.Done ds := by
  obtain ⟨tr, c, hr, hp, -⟩ := (client ℕ 100).program.threads.exists_run_of_play
    ((client ℕ 100).program.start ⟨.new 1 (by decide), 0, false⟩) mainRun
    (p := fun s => history s.2 = [(.push 8, .pushed (.error 8)), (.close, .closed),
      (.pop, .popped (some 7)), (.push 7, .pushed (.ok ()))]) (by decide)
  obtain ⟨hrow, -, hdone⟩ := queue_linearizable hr
  exact ⟨tr, c, hr, by simpa using hp, hrow, hdone⟩

/-- **The promises of the queue** in every run of a new one: first in, first out, without loss or
duplication; never more items than the capacity; and after closing no item is added, `push` gives its
item back, and a consumer goes away with nothing only when everything that was added has been
removed.

**Proof sketch.** The history of the run is a row of operations of the sequential queue (`row_of_run`),
and rows of a new queue are lawful (`Row.lawful`). -/
theorem queue_lawful {capacity : ℕ} {hpos : 0 < capacity} {clock : ℕ} {poisons : Bool}
    (h : Run maxInstant ⟨.new capacity hpos, clock, poisons⟩ tr c) :
    Lawful capacity (history tr) c.mem.value :=
  (row_of_run h).lawful

theorem queue_lawful_main :
    ∃ (tr : List (Label ℕ Bool)) (c : Threads.Conf (Mem (QueueState ℕ) Bool) Bool (Pc ℕ)),
      Run 100 ⟨.new 1 (by decide), 0, false⟩ tr c ∧ pushed (history tr) = [7] ∧
        popped (history tr) = [7] ∧ c.mem.value.closed = true ∧ Lawful 1 (history tr) c.mem.value := by
  obtain ⟨tr, c, hr, hp, -⟩ := (client ℕ 100).program.threads.exists_run_of_play
    ((client ℕ 100).program.start ⟨.new 1 (by decide), 0, false⟩) mainRun
    (p := fun s => pushed (history s.2) = [7] ∧ popped (history s.2) = [7] ∧
      s.1.mem.value.closed = true) (by decide)
  simp only [decide_eq_true_eq] at hp
  exact ⟨tr, c, hr, hp.1, hp.2.1, hp.2.2, queue_lawful hr⟩

end QubitLock.Queue
