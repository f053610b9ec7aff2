import Mathlib.Data.Set.Insert
import QubitLock.Monitor.Broadcast
import QubitLock.Tokio.Calls

set_option relaxedAutoImplicit false
set_option autoImplicit false

/-!
# Broadcast on the Tokio monitor

An update of the Tokio monitor runs from its closure to its `take_all` without an await, so it
cannot be dropped in between; a wait registers before it drops the guard. Together they exclude
lost wakeups in every interleaving of polls and drops.

Only changes that turn a waiting predicate false need a notification. The predicates in use are a
parameter `preds`; with `preds = Set.univ` every change needs one.

## Main definitions

* `Tokio.waitsOn` — the closures of the wait that a program counter belongs to, from the check that
  blocked to the end of the suspension.
* `Tokio.Spoils` — a change turns a predicate of `preds` false.
* `Tokio.NotifiesNext` — a task whose wait action spoiled a predicate calls `notify_all` next.
* `Tokio.Sending`, `Tokio.Acted` — where a task is between a change and its `take_all`.

## Main results

* `Tokio.broadcast_not_lost_async` — a registered wait has a true predicate or a `take_all` is
  still to come, and it cannot be cancelled.
-/

namespace QubitLock.Tokio

variable {σ ρ : Type}

/-- The closures of a wait that was told to block and has not ended the suspension that
follows. -/
def waitsOn : Pc σ ρ → Option (Condition σ ρ)
  | .timerAt _ w _ | .earlyPoll w | .register _ w _ | .dropGuard _ w _ _ | .pollDeadline w _ _ |
    .pollNotified _ w _ _ | .waitPending _ w _ _ | .dropRegistration w _ _ _ => some w
  | _ => none

@[simp] lemma waitsOn_entry (e : Entry σ ρ) : waitsOn e.pc = none := by
  cases e <;> rfl

@[simp] lemma waitsOn_signalAll (as : List ℕ) (out : Outcome ρ) :
    waitsOn (signalAll as out : Pc σ ρ) = none := by
  cases as <;> rfl

@[simp] lemma waitsOn_pollWait (timed : Bool) (w : Condition σ ρ) (n : ℕ) (g : Registration) :
    waitsOn (pollWait timed w n g) = some w := by
  cases timed <;> rfl

@[simp] lemma waitsOn_relocked (w : Condition σ ρ) (n : ℕ)
    (status : Option (Except TimeError WaitTimeoutStatus)) :
    waitsOn (relocked w n status) = none := by
  rcases status with - | (e | status)
  · rfl
  · rfl
  · cases status <;> rfl

/-- A wait of a Tokio monitor blocks only after its check, and neither takes the lock nor writes
before its suspension ends. -/
lemma waitsOn_reports {maxInstant : ℕ} {p : Pc σ ρ} {d : Did σ ρ} {p' : Pc σ ρ}
    {w : Condition σ ρ} (h : (code maxInstant p).Reports d p') (hw : waitsOn p' = some w) :
    (waitsOn p = some w ∧ d ≠ .locked ∧ ∀ f v r, d ≠ .wrote f v r) ∨
      ∃ n v, d = .checked v (some true) ∧ w.waiting n v = some true := by
  cases p with
  | idle | created | lockPending | waitPending | relockPending => cases h
  | check w' n =>
    cases h with
    | check _ _ v =>
      rcases hv : w'.waiting n v with - | - | - <;> rw [hv] at hw <;> cases hw
      exact .inr ⟨n, v, rfl, hv⟩
  | checkFor timeout startedAt w' =>
    cases h with
    | check _ _ v =>
      rcases hv : w'.waiting 0 v with - | - | - <;> rw [hv] at hw
      · cases hw
      · cases hw
      · dsimp only at hw
        split at hw
        · cases hw
        · split at hw <;> cases hw
          exact .inr ⟨0, v, rfl, hv⟩
  | checkDeadline deadline w' =>
    cases h with
    | check _ _ v =>
      rcases hv : w'.waiting 0 v with - | - | - <;> rw [hv] at hw <;> cases hw
      exact .inr ⟨0, v, rfl, hv⟩
  | recheck w' n reached =>
    cases h with
    | check _ _ v =>
      rcases hv : w'.waiting n v with - | - | - <;> rw [hv] at hw
      · cases hw
      · cases hw
      · cases reached <;> cases hw
        exact .inr ⟨n, v, rfl, hv⟩
  | timerAt deadline w' early =>
    cases h with
    | timerAt _ _ r =>
      refine .inl ⟨?_, by simp, by simp⟩
      cases r with
      | error e => cases hw
      | ok _ => cases early <;> exact hw
  | earlyPoll w' =>
    cases h with
    | pollTimer _ _ r =>
      refine .inl ⟨?_, by simp, by simp⟩
      rcases r with _ | _ | _ <;> first | exact hw | cases hw
  | register timed w' n =>
    cases h with
    | register _ g =>
      refine .inl ⟨?_, by simp, by simp⟩
      cases g <;> first | exact hw | cases hw
  | dropGuard timed w' n g =>
    cases h
    simp only [waitsOn_pollWait] at hw
    exact .inl ⟨hw, by simp, by simp⟩
  | pollDeadline w' n g =>
    cases h with
    | pollTimer _ _ r => cases r <;> exact .inl ⟨hw, by simp, by simp⟩
  | pollNotified timed w' n g =>
    cases h with
    | pollNotified _ _ b => cases b <;> exact .inl ⟨hw, by simp, by simp⟩
  | notify n out => cases n <;> cases h <;> simp at hw
  | lock | relock | signal => cases h <;> first | simp at hw; done | cases hw
  | read | act =>
    cases h
    dsimp only at hw
    split at hw <;> cases hw
  | write f n =>
    cases h
    cases n <;> dsimp only at hw <;> split at hw <;> cases hw
  | deadlineReached w' n =>
    cases h with
    | pollTimer _ _ r => rcases r with _ | _ | _ <;> cases hw
  | _ =>
    cases h
    cases hw

/-- The waits of a Tokio monitor. -/
def waits (maxInstant : ℕ) : Waits (program maxInstant : Program σ ρ (Pc σ ρ) (Choice σ ρ)) where
  cond := waitsOn
  idle := rfl
  reports := waitsOn_reports
  jump := by
    intro p x p' w h hw
    cases p <;> cases x <;> simp only [program, jump, reduceCtorEq] at h <;> cases h
    case idle.call op => cases op <;> cases hw
    case waitPending.poll => exact (waitsOn_pollWait _ _ _ _).symm.trans hw
    all_goals cases hw

/-! ## Who owes a notification -/

/-- The change turns a predicate of `preds` false. -/
def Spoils (preds : Set (σ → Bool)) (v v' : σ) : Prop := ∃ p ∈ preds, p v = true ∧ p v' = false

instance (p : σ → Bool) (v v' : σ) : Decidable (Spoils {p} v v') :=
  decidable_of_iff (p v = true ∧ p v' = false) (by simp [Spoils])

/-- The closure never panics. -/
def NoPanic (f : σ → σ × Option ρ) : Prop := ∀ v, (f v).2.isSome = true

/-- The operations of a broadcasting program: waits for predicates of `preds`, updates that notify
all, notifications and reads. No closure panics. -/
def Broadcasting (preds : Set (σ → Bool)) : Op σ ρ → Prop
  | .withReadAsync _ | .notifyOne | .notifyAll => True
  | .withWriteNotifyAllAsync f => NoPanic f
  | .waitWhileAsync w | .waitWhileForAsync _ w | .waitWhileWithDeadlineAsync _ w =>
    (∃ p ∈ preds, w.Pure p) ∧ NoPanic w.f
  | .withWriteAsync _ | .withWriteNotifyOneAsync _ => False

/-- The action of a wait turns no predicate of `preds` false. -/
def Harmless (preds : Set (σ → Bool)) (op : Op σ ρ) : Prop :=
  ∀ w, op.condition = some w → ∀ v, ¬ Spoils preds v (w.f v).1

/-- An update between its closure and its `take_all`, or a `notify_all` before its `take_all`. -/
def Sending : Pc σ ρ → Prop
  | .writeDone .all _ | .notify .all _ => True
  | _ => False

/-- A wait that has run its action, up to the next call of its task. -/
def Acted : Pc σ ρ → Prop
  | .finish _ | .idle => True
  | _ => False

/-- A write is run by an update or is the action of a wait. -/
lemma wrote_reports {maxInstant : ℕ} {p p' : Pc σ ρ} {f : σ → σ × Option ρ} {v : σ} {r : Option ρ}
    (h : (code maxInstant p).Reports (.wrote f v r) p') :
    (∃ n, p = .write f n) ∨ ∃ w timed, p = .act w timed ∧ f = w.f := by
  cases p with
  | write f' n =>
    cases h
    exact .inl ⟨n, rfl⟩
  | act w timed =>
    cases h
    exact .inr ⟨w, timed, rfl, rfl⟩
  | notify n out => cases n <;> cases h
  | _ => cases h

/-- A task that is sending goes on so, without the lock, until its `take_all`. -/
lemma sending_reports {maxInstant : ℕ} {p p' : Pc σ ρ} {d : Did σ ρ}
    (h : (code maxInstant p).Reports d p') (hp : Sending p) :
    d.isLock = false ∧ (d.isTakeAll = false → Sending p') := by
  cases p with
  | writeDone n out =>
    cases n with
    | one => cases hp
    | all =>
      cases h
      exact ⟨rfl, fun _ => trivial⟩
  | notify n out =>
    cases n with
    | one => cases hp
    | all =>
      cases h
      exact ⟨rfl, fun hd => by cases hd⟩
  | _ => cases hp

/-- A wait that has acted returns without taking the lock again. -/
lemma acted_reports {maxInstant : ℕ} {p p' : Pc σ ρ} {d : Did σ ρ}
    (h : (code maxInstant p).Reports d p') (hp : Acted p) : d.isLock = false ∧ Acted p' := by
  cases p with
  | finish out =>
    cases h
    exact ⟨rfl, trivial⟩
  | idle => cases h
  | _ => cases hp

/-- A broadcasting operation that writes goes on to send or, if it is a wait, to return. -/
lemma sending_wrote {maxInstant : ℕ} {preds : Set (σ → Bool)} {op : Op σ ρ} {p p' : Pc σ ρ}
    {f : σ → σ × Option ρ} {v : σ} {r : Option ρ}
    (h : (code maxInstant p).Reports (.wrote f v r) p') (hat : At op p)
    (hop : Broadcasting preds op) :
    Sending p' ∨ (Acted p' ∧ ∃ w, op.condition = some w ∧ f = w.f) := by
  rcases wrote_reports h with ⟨n, rfl⟩ | ⟨w, timed, rfl, rfl⟩
  · cases h
    -- only `with_write_notify_all_async` writes
    cases op <;> cases hat <;> try exact hop.elim
    obtain ⟨r, hr⟩ := Option.isSome_iff_exists.mp (hop v)
    rw [hr]
    exact .inl trivial
  · cases h
    have hsafe : NoPanic w.f := by
      cases op <;> cases hat.1 <;> exact hop.2
    obtain ⟨r, hr⟩ := Option.isSome_iff_exists.mp (hsafe v)
    rw [hr]
    exact .inr ⟨trivial, w, hat.1, rfl⟩

variable {Tid : Type} [DecidableEq Tid]

/-- The choice is a call of `notify_all`, or no call at all. -/
def Choice.notifiesAll : Choice σ ρ → Bool
  | .call .notifyAll | .poll | .cancel => true
  | _ => false

/-- A task that owes a notification makes no other call than `notify_all`. -/
def CallsClean (preds : Set (σ → Bool)) :
    Program.Label σ ρ (Choice σ ρ) Tid → List (Program.Label σ ρ (Choice σ ρ) Tid) → Prop
  | .chose t x, past => Owes (Spoils preds) past t → x.notifiesAll = true
  | _, _ => True

instance (preds : Set (σ → Bool)) [∀ v v', Decidable (Spoils preds v v')] :
    ∀ (l : Program.Label σ ρ (Choice σ ρ) Tid) (past : List (Program.Label σ ρ (Choice σ ρ) Tid)),
      Decidable (CallsClean preds l past)
  | .chose t x, past => 
    inferInstanceAs (Decidable (Owes (Spoils preds) past t → x.notifiesAll = true))
  | .did _ _, _ => .isTrue trivial
  | .ambient _, _ => .isTrue trivial

/-- A wait action that turns a predicate of `preds` false is followed by `notify_all` of the same
task, before any other operation of the task. -/
def NotifiesNext (preds : Set (σ → Bool)) (tr : List (Program.Label σ ρ (Choice σ ρ) Tid)) : Prop :=
  Lts.Always (CallsClean preds) tr

instance (preds : Set (σ → Bool)) [∀ v v', Decidable (Spoils preds v v')]
    (tr : List (Program.Label σ ρ (Choice σ ρ) Tid)) : Decidable (NotifiesNext preds tr) :=
  Lts.decidableAlways _ tr

/-- A task between a harmful change and its `take_all`: it is sending, or it has just run the
action of a wait that is not harmless. -/
def Owing (preds : Set (σ → Bool)) (tr : List (Program.Label σ ρ (Choice σ ρ) Tid)) (t : Tid)
    (p : Pc σ ρ) : Prop :=
  Sending p ∨ (Acted p ∧ ∃ op, lastCall Choice.called tr t = some op ∧ ¬ Harmless preds op)

/-- The future of a task that owes a notification is not at an await. -/
lemma Owing.not_suspended {preds : Set (σ → Bool)}
    {tr : List (Program.Label σ ρ (Choice σ ρ) Tid)} {t : Tid} {p : Pc σ ρ}
    (h : Owing preds tr t p) : Suspended p = false := by
  rcases h with h | ⟨h, -⟩ <;> cases p <;> first | rfl | cases h

/-- **Between a change and its `take_all` there is no await.** In a run of broadcasting operations,
a task that owes a notification is sending it or has just run the action of a wait, and no task
takes the state lock while it owes one.

**Proof sketch.** Induction over the run. An update continues from its closure to its `take_all`;
a wait continues from its action to its return, after which its task calls `notify_all`. Neither
takes the lock on the way. -/
lemma owing_of_owes (maxInstant : ℕ) {s₀ : Setup σ} {preds : Set (σ → Bool)}
    {tr : List (Program.Label σ ρ (Choice σ ρ) Tid)} {c : Threads.Conf (Mem σ Tid) Tid (Pc σ ρ)}
    (h : (program maxInstant).Run s₀ tr c)
    (hops : ∀ t op, .chose t (.call op) ∈ tr → Broadcasting preds op)
    (hnext : NotifiesNext preds tr) :
    Disciplined (Spoils preds) tr ∧
      ∀ t, Owes (Spoils preds) tr t → Owing preds tr t (c.pc t) := by
  revert hops hnext
  refine (typed maxInstant Tid).rule (I := fun tr _ pc =>
    (∀ t op, .chose t (.call op) ∈ tr → Broadcasting preds op) → NotifiesNext preds tr →
    Disciplined (Spoils preds) tr ∧
      ∀ t, Owes (Spoils preds) tr t → Owing preds tr t (pc t)) ?_ ?_ ?_ ?_ h
  · exact fun _ _ => ⟨trivial, fun t ht => ht.elim⟩
  · intro tr m pc t d p hr hi hf hops hnext
    have hops' : ∀ t op, .chose t (.call op) ∈ tr → Broadcasting preds op :=
      fun t op hmem => hops t op (List.mem_cons_of_mem _ hmem)
    obtain ⟨hdisc, hsend⟩ := hi hops' hnext.2
    have hrep : (code maxInstant (pc t)).Reports d p := hf.reports
    refine ⟨⟨?_, hdisc⟩, fun u hu => ?_⟩
    · intro hlock hu
      have hclean : d.isLock = false := by
        rcases hsend t hu with h | ⟨h, -⟩
        · exact (sending_reports hrep h).1
        · exact (acted_reports hrep h).1
      rw [hclean] at hlock
      cases hlock
    · by_cases hut : u = t
      · subst hut
        rw [Function.update_self]
        obtain ⟨-, hall, ⟨f, v, r, rfl, hspoil⟩ | hu⟩ := owes_did_self hu
        · rcases (calls maxInstant).located (typed maxInstant Tid) hr u with hidle | ⟨op, hop, hat⟩
          · obtain hidle : pc u = .idle := hidle
            rw [hidle] at hrep
            cases hrep
          · rcases sending_wrote hrep hat (hops' u op (call_mem hop)) with h | ⟨h, w, hw, rfl⟩
            · exact .inl h
            · exact .inr ⟨h, op, hop, fun hh => hh w hw v hspoil⟩
        · rcases hsend u hu with h | ⟨h, hop⟩
          · exact .inl ((sending_reports hrep h).2 hall)
          · exact .inr ⟨(acted_reports hrep h).2, hop⟩
      · rw [Function.update_of_ne hut]
        simp only [Owes, Ne.symm hut, if_false] at hu
        exact hsend u hu
  · intro tr m pc t x p hr hi hj hops hnext
    obtain ⟨hdisc, hsend⟩ := hi (fun t op hmem => hops t op (List.mem_cons_of_mem _ hmem)) hnext.2
    refine ⟨⟨trivial, hdisc⟩, fun u hu => ?_⟩
    by_cases hut : u = t
    · subst hut
      rw [Function.update_self]
      have hj : jump (pc u) x = some p := hj
      cases x with
      | call op =>
        have hall := hnext.1 hu
        cases op <;> cases hall
        cases hp : pc u <;> rw [hp] at hj <;> cases hj
        exact .inl trivial
      | poll | cancel =>
        have hold := (hsend u hu).not_suspended
        cases hp : pc u <;> rw [hp] at hj hold <;> cases hj <;> cases hold
    · rw [Function.update_of_ne hut]
      simp only [Owing, lastCall_chose_ne (Ne.symm hut)]
      exact hsend u hu
  · intro tr m pc e m' b hr hi he hops hnext
    obtain ⟨hdisc, hsend⟩ := hi (fun t op hmem => hops t op (List.mem_cons_of_mem _ hmem)) hnext.2
    exact ⟨⟨trivial, hdisc⟩, hsend⟩

/-- A registration belongs to a wait, or to a future that is being dropped. -/
lemma waitsOn_of_reg {p : Pc σ ρ} {g : Registration} (h : (typ p).reg = some g) :
    (∃ timed, p = .cancelRegistration timed g) ∨ ∃ w, waitsOn p = some w := by
  cases p with
  | cancelRegistration timed g' =>
    cases h
    exact .inl ⟨timed, rfl⟩
  | dropGuard _ w | pollDeadline w | pollNotified _ w | waitPending _ w | dropRegistration w =>
    exact .inr ⟨w, rfl⟩
  | _ => cases h

/-- The closures of a wait are those of its call. -/
lemma condition_of_waitsOn {op : Op σ ρ} {p : Pc σ ρ} {w : Condition σ ρ} (hat : At op p)
    (hw : waitsOn p = some w) : op.condition = some w := by
  cases p with
  | timerAt deadline w' early =>
    cases hw
    cases early with
    | true =>
      obtain rfl : op = _ := hat
      rfl
    | false =>
      obtain ⟨timeout, rfl⟩ := hat
      rfl
  | earlyPoll w' =>
    cases hw
    obtain ⟨deadline, rfl⟩ := hat
    rfl
  | register | dropGuard | pollDeadline | pollNotified | waitPending | dropRegistration =>
    cases hw
    exact hat.1
  | _ => cases hw

/-- A broadcasting wait has a pure predicate of `preds`. -/
lemma Broadcasting.pure {preds : Set (σ → Bool)} {op : Op σ ρ} {w : Condition σ ρ}
    (h : Broadcasting preds op) (hw : op.condition = some w) : ∃ p ∈ preds, w.Pure p := by
  cases op <;> cases hw <;> exact h.1

/-- **No lost wakeup under broadcast, cancellation included.** Let the tasks run waits for
predicates of `preds` and updates that notify all, with closures that do not panic, and let a task
whose wait action turned a predicate of `preds` false call `notify_all` next. Then every
registration in the registry belongs to a future that is being dropped or to a wait whose predicate
is true on the protected value, unless some task is between a harmful change and its `take_all`;
and a future that can be dropped owes no notification.

**Proof sketch.** The operations keep the discipline by themselves, and a task that owes a notification
is on its way to it (`owing_of_owes`). So the general result for disciplined runs (`Waits.informed`)
applies to every wait in the registry. A task on its way to a notification is not suspended, so it
cannot be dropped. -/
theorem broadcast_not_lost_async (maxInstant : ℕ) (s₀ : Setup σ) (preds : Set (σ → Bool))
    {tr : List (Program.Label σ ρ (Choice σ ρ) Tid)} {c : Threads.Conf (Mem σ Tid) Tid (Pc σ ρ)}
    (h : (program maxInstant).Run s₀ tr c)
    (hops : ∀ t op, .chose t (.call op) ∈ tr → Broadcasting preds op)
    (hnext : NotifiesNext preds tr) :
    (∀ g ∈ c.mem.registrations, ∃ t, (typ (c.pc t)).reg = some g ∧
      ((∃ timed, c.pc t = .cancelRegistration timed g) ∨
        ∃ w p, waitsOn (c.pc t) = some w ∧ p ∈ preds ∧ w.Pure p ∧
          (p c.mem.value = true ∨
            ∃ u, Owes (Spoils preds) tr u ∧ Owing preds tr u (c.pc u)))) ∧
    ∀ u p', jump (c.pc u) .cancel = some p' → ¬ Owes (Spoils preds) tr u := by
  obtain ⟨hdisc, howing⟩ := owing_of_owes maxInstant h hops hnext
  constructor
  · intro g hg
    obtain ⟨t, ht⟩ := ((typed maxInstant Tid).owned h).reg.live hg
    refine ⟨t, ht, (waitsOn_of_reg ht).imp_right ?_⟩
    rintro ⟨w, hw⟩
    rcases (calls maxInstant).located (typed maxInstant Tid) h t with hidle | ⟨op, hop, hat⟩
    · rw [show c.pc t = .idle from hidle] at hw
      cases hw
    · obtain ⟨p, hp, hpure⟩ :=
        (hops t op (call_mem hop)).pure (condition_of_waitsOn hat hw)
      refine ⟨w, p, hw, hp, hpure, ?_⟩
      have hkeep : ∀ v v', ¬ Spoils preds v v' → p v = true → p v' = true := by
        intro v v' hs hv
        by_contra hv'
        exact hs ⟨p, hp, hv, by simpa using hv'⟩
      have hinf := (waits maxInstant).informed (typed maxInstant Tid) h hdisc hw hpure hkeep ht
      refine (hinf hg).imp_right ?_
      rintro ⟨u, hu⟩
      exact ⟨u, hu, howing u hu⟩
  · intro u p' hj hu
    have hns := (howing u hu).not_suspended
    cases hp : c.pc u <;> rw [hp] at hj hns <;> cases hj <;> cases hns

/-- Tasks `0` and `2` wait while the value is zero, task `2` is dropped, and task `1` increments the
value and releases the lock; its `take_all` is still to come. -/
def lateUpdate : List (Threads.Event ℕ (Option TimeError) (Choice ℕ Unit)
    (TimerEvent ℕ)) :=
  [.choose 0 (.call (.waitWhileAsync ⟨fun _ v => some (v == 0), fun v => (v, some ())⟩)),
    .choose 0 .poll, .run 0 none, .run 0 none, .run 0 none, .run 0 none, .run 0 none,
    .choose 2 (.call (.waitWhileAsync ⟨fun _ v => some (v == 0), fun v => (v, some ())⟩)),
    .choose 2 .poll, .run 2 none, .run 2 none, .run 2 none, .run 2 none, .run 2 none,
    .choose 2 .cancel, .run 2 none,
    .choose 1 (.call (.withWriteNotifyAllAsync fun v => (v + 1, some ()))),
    .choose 1 .poll, .run 1 none, .run 1 none, .run 1 none]

/-- In the run of `lateUpdate` the waiter of task `0` is registered with a false predicate, and
task `1` is about to take it. -/
theorem broadcast_not_lost_async_late : ∃ tr c,
    (program 100 : Program ℕ Unit _ _).Run ⟨0, 0, false⟩ tr c ∧ c.mem.value = 1 ∧
      c.mem.registrations = [⟨1, 0⟩] ∧
      (∀ g ∈ c.mem.registrations, ∃ t : ℕ, (typ (c.pc t)).reg = some g ∧
        ((∃ timed, c.pc t = .cancelRegistration timed g) ∨
          ∃ w p, waitsOn (c.pc t) = some w ∧ p ∈ ({fun v => v == 0} : Set (ℕ → Bool)) ∧
            w.Pure p ∧ (p c.mem.value = true ∨ ∃ u, Owes (Spoils {fun v => v == 0}) tr u ∧
              Owing {fun v => v == 0} tr u (c.pc u)))) := by
  obtain ⟨tr, c, hr, hp, hes⟩ := (program 100).threads.exists_run_of_play
    ((program 100).start ⟨0, 0, false⟩) lateUpdate
    (p := fun s => NotifiesNext {fun v => v == 0} s.2 ∧ s.1.mem.value = 1 ∧
      s.1.mem.registrations = [⟨1, 0⟩]) (by decide)
  simp only [decide_eq_true_eq] at hp
  refine ⟨tr, c, hr, hp.2.1, hp.2.2, (broadcast_not_lost_async 100 _ _ hr ?_ hp.1).1⟩
  intro t op hmem
  have := hes _ _ hmem
  simp only [lateUpdate, List.mem_cons, Threads.Event.choose.injEq, Choice.call.injEq, reduceCtorEq,
    and_false, false_or, or_false, List.not_mem_nil] at this
  obtain ⟨-, rfl⟩ | ⟨-, rfl⟩ | ⟨-, rfl⟩ := this
  · exact ⟨⟨_, rfl, fun _ _ => rfl⟩, fun _ => rfl⟩
  · exact ⟨⟨_, rfl, fun _ _ => rfl⟩, fun _ => rfl⟩
  · exact fun _ => rfl

end QubitLock.Tokio
