import QubitLock.Blocking.Program
import QubitLock.Monitor.Client

set_option relaxedAutoImplicit false
set_option autoImplicit false

/-!
# The provided methods of the monitor traits

The blocking monitors have methods `with_write_notify_one` and `with_write_notify_all` of their own:
they take the guard out of its slot and notify before they return (`std_monitor.rs`,
`std_monitor_guard.rs` and their parking-lot twins). The trait `Monitor` provides methods of the same
names (`monitor.rs`), which no monitor overrides: they call `with_write`, whose guard goes away when it
returns, and notify in a second call. Direct code runs the former, and code that is generic over the
trait runs the latter.

Both do the same in the same order, whatever other threads do in between. They differ in what the lock
is released by, and in when the result of the closure leaves the monitor.

## Main definitions

* `Blocking.Op.ofTrait` — the operations that generic code can call.
* `Blocking.generic` — generic code, as a client of the monitor.
* `Blocking.observed` — what a report tells about the shared memory.
* `Blocking.Agree` — a place in generic code and the one in direct code.

## Main results

* `Blocking.provided_methods_agree` — generic and direct code have the same observed runs.
-/

namespace QubitLock.Blocking

variable {σ ρ Tid : Type}

/-- The operations of the traits. Guards and the poison marker are there for direct code only. -/
def Op.ofTrait : Op σ ρ → Bool
  | .lock | .isPoisoned | .clearPoison => false
  | _ => true

/-- The notification of an update. -/
def Op.afterWrite : Op σ ρ → Option Notify
  | .withWriteNotifyOne _ => some .one
  | .withWriteNotifyAll _ => some .all
  | _ => none

/-- The first call of a method of the traits. -/
def Op.firstCall : Op σ ρ → Op σ ρ
  | .withWriteNotifyOne f | .withWriteNotifyAll f => .withWrite f
  | op => op

/-- An operation that generic code can call. -/
abbrev TraitOp (σ ρ : Type) := { op : Op σ ρ // op.ofTrait = true }

/-- Code that is generic over the traits: the provided methods are two calls of the monitor. -/
def generic (σ ρ : Type) (maxInstant : ℕ) :
    Client (program maxInstant : Program σ ρ (Pc σ ρ) (Choice σ ρ)) (TraitOp σ ρ) where
  first o := .call o.1.firstCall
  after o _ := o.1.afterWrite
  notify
    | .one => .call .notifyOne
    | .all => .call .notifyAll
  returns {p out k} h := by
    cases p with
    | notify n out => cases n <;> cases h
    | _ => cases h <;> rfl
  unwinds {p k} h := by
    cases p with
    | notify n out => cases n <;> cases h
    | _ => cases h <;> rfl

/-- What a report tells about the shared memory. The release of the lock and the return of a result
that a closure has already reported are not told. -/
def observed : Did σ ρ → Option (Did σ ρ)
  | .unlocked | .returned .unit _ _ | .returned (.value _) _ _ => none
  | d => some d

/-- What is observed of direct code. -/
def directView : Program.Label σ ρ (Choice σ ρ) Tid → Option (Program.Label σ ρ (Op σ ρ) Tid) :=
  Threads.Label.view observed
    (fun
      | .call op => some op
      | _ => none)
    some

/-- What is observed of generic code. -/
def genericView : Program.Label σ ρ (ClientChoice (TraitOp σ ρ)) Tid →
    Option (Program.Label σ ρ (Op σ ρ) Tid) :=
  Threads.Label.view observed
    (fun
      | .op o => some o.1
      | .notify _ => none)
    some

/-- The result of a closure that a report returns. -/
def resultOf : Did σ ρ → List ρ
  | .returned (.value r) _ _ => [r]
  | _ => []

/-- The results of closures that a thread has got, newest first. -/
def results {C : Type} [DecidableEq Tid] (t : Tid) : List (Program.Label σ ρ C Tid) → List ρ
  | [] => []
  | .did u d :: tr => if u = t then resultOf d ++ results t tr else results t tr
  | _ :: tr => results t tr

/-- A call of a method that the traits have as well. -/
def Choice.ofTrait : Choice σ ρ → Bool
  | .call op => op.ofTrait
  | _ => false

/-! ## Places in generic and in direct code -/

/-- The place of a thread in generic code and the one in direct code. -/
inductive Agree : ClientPc (Pc σ ρ) (TraitOp σ ρ) → Pc σ ρ → Prop
  | idle : Agree .idle .idle
  /-- Inside a method that the traits do not provide. -/
  | same {o : TraitOp σ ρ} {p : Pc σ ρ} (ho : o.1.afterWrite = none) (hp : p ≠ .idle) :
      Agree (.within o p) p
  | acquire {o : TraitOp σ ρ} {n : Notify} (f : σ → σ × Option ρ) (ho : o.1.afterWrite = some n) :
      Agree (.within o (.acquire (.write f none))) (.acquire (.write f (some n)))
  | write {o : TraitOp σ ρ} {n : Notify} (f : σ → σ × Option ρ) (ho : o.1.afterWrite = some n) :
      Agree (.within o (.write f none)) (.write f (some n))
  | release {o : TraitOp σ ρ} {n : Notify} (r : ρ) (ho : o.1.afterWrite = some n) :
      Agree (.within o (.finish (.value r))) (.notifyRelease n (.value r))
  | unwind {o : TraitOp σ ρ} {n : Notify} (ho : o.1.afterWrite = some n) :
      Agree (.within o .unwindGuard) .unwindGuard
  | ready {o : TraitOp σ ρ} (n : Notify) (r : ρ) : Agree (.ready o n) (.notify n (.value r))
  | notify {o : TraitOp σ ρ} (n : Notify) (r : ρ) :
      Agree (.notifying o (.notify n .unit)) (.notify n (.value r))
  | signal {o : TraitOp σ ρ} (a : ℕ) (rest : List ℕ) (r : ρ) :
      Agree (.notifying o (.signal a rest .unit)) (.signal a rest (.value r))
  | done {o : TraitOp σ ρ} (r : ρ) : Agree (.notifying o (.done .unit)) (.done (.value r))

/-- Both notifications wake the same waiters. -/
lemma agree_wakeAll (o : TraitOp σ ρ) (as : List ℕ) (r : ρ) :
    Agree (.notifying o (wakeAll as .unit)) (wakeAll as (.value r)) := by
  cases as with
  | nil => exact .done r
  | cons a rest => exact .signal a rest r

/-- Both begin in places that agree. -/
lemma agree_begin (o : TraitOp σ ρ) : Agree (.within o o.1.firstCall.begin) o.1.begin := by
  obtain ⟨op, hop⟩ := o
  cases op with
  | withWriteNotifyOne f => exact .acquire f rfl
  | withWriteNotifyAll f => exact .acquire f rfl
  | _ => exact .same rfl (by simp [Op.firstCall, Op.begin])

/-- The result that direct code will return after its notification. -/
def Pc.result : Pc σ ρ → List ρ
  | .notify _ (.value r) | .signal _ _ (.value r) | .done (.value r) => [r]
  | _ => []

/-- The result that generic code has got already, while direct code still has to return it. -/
def pending : ClientPc (Pc σ ρ) (TraitOp σ ρ) → Pc σ ρ → List ρ
  | .ready _ _, q | .notifying _ _, q => q.result
  | _, _ => []

@[simp] lemma pending_wakeAll (o : TraitOp σ ρ) (p : Pc σ ρ) (as : List ℕ) (r : ρ) :
    pending (.notifying o p) (wakeAll as (.value r)) = [r] := by
  cases as <;> rfl

/-- The current call of generic code may have a Timer future. -/
def MayTime : ClientPc (Pc σ ρ) (TraitOp σ ρ) → Prop
  | .within o _ => o.1.afterWrite = none
  | _ => False

/-- A call goes on inside the monitor until it returns or panics. -/
lemma ne_idle_of_reports {maxInstant : ℕ} {p p' : Pc σ ρ} {d : Did σ ρ}
    (h : (code maxInstant p).Reports d p') (hret : ∀ out v now, d ≠ .returned out v now)
    (hpanic : d ≠ .unwound) : p' ≠ .idle := by
  cases p with
  | idle | held | heldUnwinding => cases h
  | finish | done =>
    cases h
    exact absurd rfl (hret _ _ _)
  | unwindGuard =>
    cases h
    exact absurd rfl hpanic
  | acquire e =>
    cases h
    cases e <;> simp [Entry.pc]
  | write f n =>
    cases h with
    | write _ _ v => cases (f v).2 <;> cases n <;> simp
  | notify n out =>
    cases n <;> cases h
    case one.takeOne g => cases g <;> simp [wakeAll]
    case all.takeAll gs => cases gs <;> simp [wakeAll]
  | signal a rest out =>
    cases h
    cases rest <;> simp [wakeAll]
  | checkFor timeout startedAt w =>
    cases h with
    | check _ _ v =>
      rcases w.waiting 0 v with _ | _ | _
      · simp
      · simp
      · dsimp only
        split
        · simp
        · cases checkedAdd maxInstant startedAt timeout <;> simp
  | recheck w n status =>
    cases h with
    | check _ _ v =>
      rcases w.waiting n v with _ | _ | _ <;> cases status <;> simp [WaitTimeoutStatus.isTimedOut]
  | timerAt deadline c early =>
    cases h with
    | timerAt _ _ r => cases r <;> cases c <;> cases early <;> simp [timerFailed]
  | earlyPoll w =>
    cases h with
    | pollTimer _ _ r =>
      rcases r with _ | e | u <;> simp
  | pollNoWaiter c | finalPoll c a =>
    cases h with
    | pollTimer _ _ r =>
      rcases r with _ | e | u <;> cases c <;> simp [resumeTimed, Except.map]
  | register timed c =>
    cases h with
    | register _ g => cases g <;> cases timed <;> cases c <;> simp [panicked]
  | dropEarly c g r =>
    cases h
    cases c <;> cases r <;> simp [resumeTimed, Except.map]
  | dropRegistration timed c g =>
    cases h
    cases timed <;> simp
  | reacquire c =>
    cases h
    cases c <;> simp [resume]
  | unwindRegistration c g =>
    cases h
    cases c <;> simp [panicked]
  | deadlineAfter | read | guardRead | guardWrite | check | checkDeadline | timerAfter | act |
    pollRegistered =>
    cases h
    dsimp only
    split <;> simp
  | _ =>
    cases h
    simp

variable [DecidableEq Tid] {m : Mem σ Tid} {t : Tid}

/-- Two reports from places `p` and `q` that tell the same, have the same effect, and lead to places that
agree. -/
structure Matches (m : Mem σ Tid) (t : Tid) (p : ClientPc (Pc σ ρ) (TraitOp σ ρ)) (q : Pc σ ρ)
    (x : Did σ ρ × ClientPc (Pc σ ρ) (TraitOp σ ρ)) (y : Did σ ρ × Pc σ ρ) : Prop where
  observed : observed x.1 = observed y.1
  effect : m.effect t x.1 = m.effect t y.1
  agree : Agree x.2 y.2
  result : resultOf x.1 ++ pending p q = pending x.2 y.2 ++ resultOf y.1
  /-- Without a timed call there is no Timer future. -/
  future : ¬ MayTime x.2 → (m.effect t x.1).future t = none

/-- **The return of `with_write` releases the lock as `release_guard` does.** -/
lemma dropCall_eq_unlocked (hslot : m.slot t = true) (hfuture : m.future t = none) (out : Outcome ρ)
    (v : σ) (now : ℕ) :
    m.effect t (.returned out v now : Did σ ρ) = m.effect t (.unlocked : Did σ ρ) := by
  have hsame : Function.update m.future t none = m.future := by
    rw [← hfuture, Function.update_eq_self]
  simp [Mem.effect, Mem.dropCall, hslot, hsame]

/-- A report that makes no Timer future leaves a call without one. -/
lemma effect_future_eq_none {d : Did σ ρ} (hfuture : m.future t = none)
    (hd : ∀ deadline r, d ≠ .timerMade deadline r) : (m.effect t d).future t = none := by
  rw [m.effect_future]
  cases d with
  | timerMade deadline r => exact absurd rfl (hd deadline r)
  | polled => simp [hfuture]
  | returned | guardReturned | unwound => exact Function.update_self _ _ _
  | _ => exact hfuture

variable {maxInstant : ℕ} {fault : Option TimeError}

/-- The same primitive inside a provided method on both sides. -/
lemma matches_of_same {d : Did σ ρ} {p p' : ClientPc (Pc σ ρ) (TraitOp σ ρ)} {q q' : Pc σ ρ}
    (hfuture : m.future t = none) (hd : ∀ deadline r, d ≠ .timerMade deadline r) (h : Agree p' q')
    (hresult : resultOf d ++ pending p q = pending p' q' ++ resultOf d) :
    Matches m t p q (d, p') (d, q') :=
  ⟨rfl, rfl, h, hresult, fun _ => effect_future_eq_none hfuture hd⟩

/-- A primitive of a call that is the same in generic and in direct code. -/
lemma matches_continues {o : TraitOp σ ρ} {q k : Pc σ ρ} {d : Did σ ρ} (ho : o.1.afterWrite = none)
    (hf : (code maxInstant q).fire m t fault = some (d, k)) (hreports : (code maxInstant q).Reports d k) :
    Matches m t (.within o q) q
      (d, d.continues (.within o) ((generic σ ρ maxInstant).resume o) .idle k) (d, k) := by
  cases d with
  | returned out v now =>
    obtain rfl : k = .idle := (generic σ ρ maxInstant).eq_idle_of_fire hf (.inl ⟨out, v, now, rfl⟩)
    have hresume : (generic σ ρ maxInstant).resume o out = .idle := by
      simp only [Client.resume, generic, ho]
    simp only [Did.continues, hresume]
    exact ⟨rfl, rfl, .idle, List.append_nil _, fun _ => Function.update_self _ _ _⟩
  | unwound =>
    obtain rfl : k = .idle := (generic σ ρ maxInstant).eq_idle_of_fire hf (.inr rfl)
    exact ⟨rfl, rfl, .idle, rfl, fun _ => Function.update_self _ _ _⟩
  | _ =>
    exact ⟨rfl, rfl, .same ho (ne_idle_of_reports hreports (by simp) (by simp)), rfl,
      fun hno => absurd ho hno⟩

/-- **Generic and direct code make matching steps** from places that agree, unless generic code is
between its two calls.

**Proof sketch.** By the agreement of the two places. Inside one call of the monitor both execute the
same primitive on the same memory. Between the update and the notification of a provided method generic
code returns where direct code releases its guard, which has the same effect since the call has no Timer
future. -/
lemma Agree.fire {p : ClientPc (Pc σ ρ) (TraitOp σ ρ)} {q : Pc σ ρ} (h : Agree p q)
    (hready : ∀ o n, p ≠ .ready o n)
    (hreports : ∀ {d k}, (code maxInstant q).fire m t fault = some (d, k) →
      (code maxInstant q).Reports d k)
    (hfuture : ¬ MayTime p → m.future t = none) :
    Option.Rel (Matches m t p q) (((generic σ ρ maxInstant).code p).fire m t fault)
      ((code maxInstant q).fire m t fault) := by
  cases h with
  | idle => exact .none
  | @same o _ ho hp =>
    simp only [Client.code, Cmd.fire_within]
    show Option.Rel (Matches m t _ q) (((code maxInstant q).fire m t fault).map _) _
    cases hf : (code maxInstant q).fire m t fault with
    | none => exact .none
    | some x => exact .some (matches_continues ho hf (hreports hf))
  | @acquire o n f ho =>
    have hnone := hfuture (by simp [MayTime, ho])
    simp only [Client.code, program, code, Cmd.within, Cmd.fire, Mem.recover_lockState]
    split
    · exact .some (matches_of_same hnone (by simp) (.write f ho) rfl)
    · exact .none
  | @write o n f ho =>
    have hnone := hfuture (by simp [MayTime, ho])
    simp only [Client.code, program, code, Cmd.within, Cmd.fire]
    split
    · cases (f m.value).2 with
      | none => exact .some (matches_of_same hnone (by simp) (.unwind ho) rfl)
      | some r => exact .some (matches_of_same hnone (by simp) (.release r ho) rfl)
    · exact .some (matches_of_same hnone (by simp) (.unwind ho) rfl)
  | @release o n r ho =>
    have hnone := hfuture (by simp [MayTime, ho])
    cases hslot : m.slot t with
    | false =>
      have hempty : (code maxInstant (.notifyRelease n (.value r) : Pc σ ρ)).fire m t fault =
          some (.slotEmpty, .unwindGuard) := by
        simp [code, Cmd.fire, hslot]
      cases hreports hempty
    | true =>
      have hready : (generic σ ρ maxInstant).resume o (.value r) = .ready o n := by
        simp only [Client.resume, generic, ho]
      have hmatch : Matches m t (.within o (.finish (.value r))) (.notifyRelease n (.value r))
          (.returned (.value r) m.value m.clock, (generic σ ρ maxInstant).resume o (.value r))
          (.unlocked, .notify n (.value r)) := by
        rw [hready]
        exact ⟨rfl, dropCall_eq_unlocked hslot hnone _ _ _, .ready n r, rfl,
          fun _ => Function.update_self _ _ _⟩
      simp only [Client.code, program, code, Cmd.within, Cmd.fire, hslot, if_true]
      exact .some hmatch
  | @unwind o n ho =>
    exact .some (matches_of_same (hfuture (by simp [MayTime, ho])) (by simp) .idle rfl)
  | ready => exact absurd rfl (hready _ _)
  | @notify o n r =>
    have hnone := hfuture (by simp [MayTime])
    cases n <;>
      exact .some (matches_of_same hnone (by simp) (agree_wakeAll o _ r) (by simp [resultOf]; rfl))
  | @signal o a rest r =>
    have hnone := hfuture (by simp [MayTime])
    exact .some (matches_of_same hnone (by simp) (agree_wakeAll o rest r) (by simp [resultOf]; rfl))
  | @done o r => exact .some ⟨rfl, rfl, .idle, rfl, fun _ => Function.update_self _ _ _⟩

/-! ## Runs -/

/-- A run of generic code and one of direct code that has come to the same. -/
structure InAgreement (m : Mem σ Tid) (tr : List (Program.Label σ ρ (ClientChoice (TraitOp σ ρ)) Tid))
    (pc : Tid → ClientPc (Pc σ ρ) (TraitOp σ ρ)) (tr' : List (Program.Label σ ρ (Choice σ ρ) Tid))
    (pc' : Tid → Pc σ ρ) : Prop where
  agree : ∀ t, Agree (pc t) (pc' t)
  results : ∀ t, results t tr = pending (pc t) (pc' t) ++ results t tr'
  future : ∀ t, ¬ MayTime (pc t) → m.future t = none

variable {s₀ : Setup σ} {tr : List (Program.Label σ ρ (ClientChoice (TraitOp σ ρ)) Tid)}
  {pc : Tid → ClientPc (Pc σ ρ) (TraitOp σ ρ)} {tr' : List (Program.Label σ ρ (Choice σ ρ) Tid)}
  {pc' : Tid → Pc σ ρ}

namespace InAgreement

/-- Matching reports keep the agreement. -/
lemma did (h : InAgreement m tr pc tr' pc') {x : Did σ ρ × ClientPc (Pc σ ρ) (TraitOp σ ρ)}
    {y : Did σ ρ × Pc σ ρ} (hxy : Matches m t (pc t) (pc' t) x y) :
    InAgreement (m.effect t x.1) (.did t x.1 :: tr) (Function.update pc t x.2) (.did t y.1 :: tr')
      (Function.update pc' t y.2) where
  agree := Threads.related_update h.agree hxy.agree
  results u := by
    by_cases hut : u = t
    · subst hut
      simp only [Blocking.results, if_true, Function.update_self]
      rw [h.results u, ← List.append_assoc, hxy.result, List.append_assoc]
    · simp only [Blocking.results, if_neg (Ne.symm hut), Function.update_of_ne hut]
      exact h.results u
  future := (Function.forall_update_iff pc fun u p => ¬ MayTime p →
    (m.effect t x.1).future u = none).mpr ⟨hxy.future, fun u hut hno =>
      (Mem.effect_future_ne hut).trans (h.future u hno)⟩

/-- So does a call. -/
lemma call (h : InAgreement m tr pc tr' pc') (ht : pc t = .idle) (o : TraitOp σ ρ) :
    InAgreement m (.chose t (.op o) :: tr) (Function.update pc t (.within o o.1.firstCall.begin))
      (.chose t (.call o.1) :: tr') (Function.update pc' t o.1.begin) where
  agree := Threads.related_update h.agree (agree_begin o)
  results u := by
    have hold := h.results u
    by_cases hut : u = t
    · subst hut
      rw [ht] at hold
      rw [Function.update_self]
      exact hold
    · rw [Function.update_of_ne hut, Function.update_of_ne hut]
      exact hold
  future := (Function.forall_update_iff pc fun u p => ¬ MayTime p → m.future u = none).mpr
    ⟨fun _ => h.future t (by simp [ht, MayTime]), fun u _ => h.future u⟩

/-- Generic code goes on to its notification, where direct code is already. -/
lemma notify (h : InAgreement m tr pc tr' pc') {o : TraitOp σ ρ} {n : Notify} (ht : pc t = .ready o n) :
    InAgreement m (.chose t (.notify n) :: tr) (Function.update pc t (.notifying o (.notify n .unit))) tr'
      pc' where
  agree := by
    have hagree := h.agree t
    rw [ht] at hagree
    generalize hq : pc' t = q at hagree
    cases hagree with
    | ready _ r =>
      have hnew := Threads.related_update h.agree (t := t) (Agree.notify (o := o) n r)
      rwa [← hq, Function.update_eq_self] at hnew
  results u := by
    have hold := h.results u
    by_cases hut : u = t
    · subst hut
      rw [ht] at hold
      rw [Function.update_self]
      exact hold
    · rw [Function.update_of_ne hut]
      exact hold
  future := (Function.forall_update_iff pc fun u p => ¬ MayTime p → m.future u = none).mpr
    ⟨fun _ => h.future t (by simp [ht, MayTime]), fun u _ => h.future u⟩

/-- The Timer makes no Timer futures. -/
lemma timer (h : InAgreement m tr pc tr' pc') {e : TimerEvent Tid} {m' : Mem σ Tid} {b : TimerDid Tid}
    (he : m.timer e = some (m', b)) : InAgreement m' (.ambient b :: tr) pc (.ambient b :: tr') pc' := by
  refine ⟨h.agree, h.results, fun u hno => ?_⟩
  have hnone := h.future u hno
  rcases Mem.timer_eq_some he with ⟨d, rfl, -⟩ | ⟨t, f, r, hf, -, rfl, -⟩ | ⟨a, -, rfl, -⟩ |
    ⟨a, -, rfl, -⟩
  · exact hnone
  · have hut : u ≠ t := by
      rintro rfl
      rw [hnone] at hf
      cases hf
    exact (Function.update_of_ne hut _ _).trans hnone
  · exact hnone
  · exact hnone

/-- **Matching steps in a run of direct code.** -/
lemma fire (h : InAgreement m tr pc tr' pc') (hr : (program maxInstant).Run s₀ tr' ⟨m, pc'⟩) (t : Tid)
    (fault : Option TimeError) (hready : ∀ o n, pc t ≠ .ready o n) :
    Option.Rel (Matches m t (pc t) (pc' t)) (((generic σ ρ maxInstant).code (pc t)).fire m t fault)
      ((code maxInstant (pc' t)).fire m t fault) :=
  (h.agree t).fire hready
    (fun hf => ((typed maxInstant Tid).fires ((typed maxInstant Tid).owned hr) hf).reports) (h.future t)

end InAgreement

/-- What matching reports show. -/
lemma Matches.view {p : ClientPc (Pc σ ρ) (TraitOp σ ρ)} {q : Pc σ ρ}
    {x : Did σ ρ × ClientPc (Pc σ ρ) (TraitOp σ ρ)} {y : Did σ ρ × Pc σ ρ} (h : Matches m t p q x y) :
    [(.did t y.1 : Program.Label σ ρ (Choice σ ρ) Tid)].filterMap directView =
      [(.did t x.1 : Program.Label σ ρ (ClientChoice (TraitOp σ ρ)) Tid)].filterMap genericView := by
  simp only [List.filterMap_cons, List.filterMap_nil, directView, genericView, Threads.Label.view,
    h.observed]

/-- **What a choice of generic code can do**: call a method, or go on to the notification. -/
lemma generic_jump {p p' : ClientPc (Pc σ ρ) (TraitOp σ ρ)} {x : ClientChoice (TraitOp σ ρ)}
    (h : (generic σ ρ maxInstant).jump p x = some p') :
    (∃ o, p = .idle ∧ x = .op o ∧ p' = .within o o.1.firstCall.begin) ∨
      ∃ o n, p = .ready o n ∧ x = .notify n ∧ p' = .notifying o (.notify n .unit) := by
  cases p with
  | idle =>
    cases x with
    | op o =>
      cases h
      exact .inl ⟨o, rfl, rfl, rfl⟩
    | notify n => cases h
  | ready o n =>
    cases x with
    | op o => cases h
    | notify n' =>
      simp only [Client.jump, Option.ite_none_right_eq_some] at h
      obtain ⟨rfl, h⟩ := h
      cases n' <;> cases h <;> exact .inr ⟨o, _, rfl, rfl, rfl⟩
  | within | notifying => cases x <;> cases h

/-- A method is called from outside the monitor. -/
lemma jump_call {p p' : Pc σ ρ} {op : Op σ ρ} (h : jump p (.call op) = some p') :
    p = .idle ∧ p' = op.begin := by
  cases p <;> cases h
  exact ⟨rfl, rfl⟩

/-- Both are outside the monitor at the same time. -/
lemma Agree.idle_iff {p : ClientPc (Pc σ ρ) (TraitOp σ ρ)} {q : Pc σ ρ} (h : Agree p q) :
    p = .idle ↔ q = .idle := by
  cases h with
  | idle => exact ⟨fun _ => rfl, fun _ => rfl⟩
  | same ho hp => simp [hp]
  | _ => simp

/-- Direct code follows generic code.

**Proof sketch.** By the kind of the step. A primitive is matched by a primitive (`Agree.fire`), a call
by the call of the method of the monitor. The second call of a provided method is a step of generic code
alone, and direct code stays where it is. -/
lemma InAgreement.follow_generic (h : InAgreement m tr pc tr' pc')
    (hr : (program maxInstant).Run s₀ tr' ⟨m, pc'⟩) {e : Threads.Event Tid (Option TimeError)
      (ClientChoice (TraitOp σ ρ)) (TimerEvent Tid)}
    {c : Threads.Conf (Mem σ Tid) Tid (ClientPc (Pc σ ρ) (TraitOp σ ρ))}
    {l : Program.Label σ ρ (ClientChoice (TraitOp σ ρ)) Tid}
    (hs : (generic σ ρ maxInstant).program.threads.step ⟨m, pc⟩ e = some (c, l)) :
    ∃ ls c', (program maxInstant).threads.Run ⟨m, pc'⟩ ls c' ∧
      ls.filterMap directView = [l].filterMap genericView ∧ c'.mem = c.mem ∧
      InAgreement c.mem (l :: tr) c.pc (ls ++ tr') c'.pc ∧
      ∀ t x, .chose t x ∈ ls → x.ofTrait = true := by
  rcases (generic σ ρ maxInstant).program.threads.step_eq_some hs with ⟨t, fault, d, p, -, hf, rfl, rfl⟩ |
    ⟨t, x, p, -, hj, rfl, rfl⟩ | ⟨e, m', b, -, he, rfl, rfl⟩
  · have hready : ∀ o n, pc t ≠ .ready o n := by
      intro o n ht
      have hnone : (generic σ ρ maxInstant).program.threads.fire m t fault (pc t) = none := by
        rw [ht]
        rfl
      rw [hnone] at hf
      cases hf
    have hrel := h.fire hr t fault hready
    rw [show ((generic σ ρ maxInstant).code (pc t)).fire m t fault = some (d, p) from hf] at hrel
    generalize hq : (code maxInstant (pc' t)).fire m t fault = y at hrel
    cases hrel with
    | @some _ y hxy =>
      have hstep : (program maxInstant).threads.step ⟨m, pc'⟩ (.run t fault) = some (_, _) :=
        Threads.step_run _ hq
      exact ⟨_, _, .single _ hstep, hxy.view, hxy.effect.symm, h.did hxy, by simp⟩
  · rcases generic_jump hj with ⟨o, ht, rfl, rfl⟩ | ⟨o, n, ht, rfl, rfl⟩
    · have hidle : pc' t = .idle := (h.agree t).idle_iff.mp ht
      have hjump : jump (pc' t) (.call o.1) = some o.1.begin := by
        rw [hidle]
        rfl
      have hstep : (program maxInstant).threads.step ⟨m, pc'⟩ (.choose t (.call o.1)) = some (_, _) :=
        Threads.step_choose _ hjump
      refine ⟨_, _, .single _ hstep, rfl, rfl, h.call ht o, fun u x hx => ?_⟩
      cases List.mem_singleton.mp hx
      exact o.2
    · exact ⟨[], _, .nil, rfl, rfl, h.notify ht, by simp⟩
  · have hstep : (program maxInstant).threads.step ⟨m, pc'⟩ (.ambient e) = some (_, _) :=
      Threads.step_ambient _ he
    exact ⟨_, _, .single _ hstep, rfl, rfl, h.timer he, by simp⟩

/-- Generic code can go on to its notification at once. -/
lemma InAgreement.exists_not_ready (h : InAgreement m tr pc tr' pc') (maxInstant : ℕ) (t : Tid) :
    ∃ ls pc₁, (generic σ ρ maxInstant).program.threads.Run ⟨m, pc⟩ ls ⟨m, pc₁⟩ ∧
      ls.filterMap genericView = [] ∧ InAgreement m (ls ++ tr) pc₁ tr' pc' ∧
      ∀ o n, pc₁ t ≠ .ready o n := by
  cases ht : pc t with
  | ready o n =>
    have hjump : (generic σ ρ maxInstant).jump (pc t) (.notify n) =
        some (.notifying o (.notify n .unit)) := by
      rw [ht]
      cases n <;> rfl
    have hstep : (generic σ ρ maxInstant).program.threads.step ⟨m, pc⟩ (.choose t (.notify n)) =
        some (_, _) := Threads.step_choose _ hjump
    exact ⟨_, _, .single _ hstep, rfl, h.notify ht, by simp⟩
  | _ => exact ⟨[], pc, .nil, rfl, h, by simp [ht]⟩

/-- Generic code follows direct code that keeps to the traits.

**Proof sketch.** The generic code first makes the steps that show nothing, until it is at a place that
does (`exists_not_ready`). There the two codes make the same report. -/
lemma InAgreement.follow_direct (h : InAgreement m tr pc tr' pc')
    (hr : (program maxInstant).Run s₀ tr' ⟨m, pc'⟩) {e : Threads.Event Tid (Option TimeError)
      (Choice σ ρ) (TimerEvent Tid)} {c' : Threads.Conf (Mem σ Tid) Tid (Pc σ ρ)}
    {l : Program.Label σ ρ (Choice σ ρ) Tid}
    (hs : (program maxInstant).threads.step ⟨m, pc'⟩ e = some (c', l))
    (hl : ∀ t x, l = .chose t x → x.ofTrait = true) :
    ∃ ls c, (generic σ ρ maxInstant).program.threads.Run ⟨m, pc⟩ ls c ∧
      ls.filterMap genericView = [l].filterMap directView ∧ c.mem = c'.mem ∧
      InAgreement c'.mem (ls ++ tr) c.pc (l :: tr') c'.pc := by
  rcases (program maxInstant).threads.step_eq_some hs with ⟨t, fault, d, q, -, hf, rfl, rfl⟩ |
    ⟨t, x, q, -, hj, rfl, rfl⟩ | ⟨e, m', b, -, he, rfl, rfl⟩
  · obtain ⟨ls, pc₁, hrun, hview, h₁, hready⟩ := h.exists_not_ready maxInstant t
    have hrel := h₁.fire hr t fault hready
    rw [show (code maxInstant (pc' t)).fire m t fault = some (d, q) from hf] at hrel
    generalize hp : ((generic σ ρ maxInstant).code (pc₁ t)).fire m t fault = x at hrel
    cases hrel with
    | @some x _ hxy =>
      have hstep : (generic σ ρ maxInstant).program.threads.step ⟨m, pc₁⟩ (.run t fault) = some (_, _) :=
        Threads.step_run _ hp
      have hnew := h₁.did hxy
      rw [hxy.effect] at hnew
      refine ⟨_, _, hrun.cons _ hstep, ?_, hxy.effect, hnew⟩
      rw [← List.singleton_append, List.filterMap_append, hview, List.append_nil]
      exact hxy.view.symm
  · cases x with
    | call op =>
      have hop : op.ofTrait = true := hl t _ rfl
      obtain ⟨hidle, rfl⟩ := jump_call hj
      have ht : pc t = .idle := (h.agree t).idle_iff.mpr hidle
      have hjump : (generic σ ρ maxInstant).jump (pc t) (.op ⟨op, hop⟩) =
          some (.within ⟨op, hop⟩ op.firstCall.begin) := by
        rw [ht]
        rfl
      have hstep : (generic σ ρ maxInstant).program.threads.step ⟨m, pc⟩ (.choose t (.op ⟨op, hop⟩)) =
          some (_, _) := Threads.step_choose _ hjump
      exact ⟨_, _, .single _ hstep, rfl, rfl, h.call ht ⟨op, hop⟩⟩
    | _ => cases hl t _ rfl
  · have hstep : (generic σ ρ maxInstant).program.threads.step ⟨m, pc⟩ (.ambient e) = some (_, _) :=
      Threads.step_ambient _ he
    exact ⟨_, _, .single _ hstep, rfl, rfl, h.timer he⟩

/-- Nobody can tell a run of generic code from a run of direct code. -/
structure Indistinguishable (tr : List (Program.Label σ ρ (ClientChoice (TraitOp σ ρ)) Tid))
    (c : Threads.Conf (Mem σ Tid) Tid (ClientPc (Pc σ ρ) (TraitOp σ ρ)))
    (tr' : List (Program.Label σ ρ (Choice σ ρ) Tid)) (c' : Threads.Conf (Mem σ Tid) Tid (Pc σ ρ)) :
    Prop where
  /-- The same is observed, in the same order. -/
  view : tr'.filterMap directView = tr.filterMap genericView
  /-- The shared memory is the same. -/
  mem : c'.mem = c.mem
  /-- The same threads are outside the monitor. -/
  idle : ∀ t, c.pc t = .idle ↔ c'.pc t = .idle
  /-- They have got the same results. -/
  results : ∀ t, c.pc t = .idle → results t tr = results t tr'

/-- Runs that have come to the same are indistinguishable. -/
lemma InAgreement.indistinguishable {c : Threads.Conf (Mem σ Tid) Tid (ClientPc (Pc σ ρ) (TraitOp σ ρ))}
    {c' : Threads.Conf (Mem σ Tid) Tid (Pc σ ρ)} (h : InAgreement c.mem tr c.pc tr' c'.pc)
    (hmem : c'.mem = c.mem) (hview : tr'.filterMap directView = tr.filterMap genericView) :
    Indistinguishable tr c tr' c' := by
  refine ⟨hview, hmem, fun t => (h.agree t).idle_iff, fun t ht => ?_⟩
  rw [h.results t, ht]
  rfl

/-- Before the first step nothing has happened. -/
lemma InAgreement.start (maxInstant : ℕ) (s₀ : Setup σ) :
    InAgreement (.init s₀.poisons s₀.value s₀.clock : Mem σ Tid) []
      ((generic σ ρ maxInstant).program.start s₀).pc [] ((program maxInstant).start s₀).pc :=
  ⟨fun _ => .idle, fun _ => rfl, fun _ _ => rfl⟩

/-- Generic code and direct code have come to the same, in the same memory. -/
def Together (tr : List (Program.Label σ ρ (ClientChoice (TraitOp σ ρ)) Tid))
    (c : Threads.Conf (Mem σ Tid) Tid (ClientPc (Pc σ ρ) (TraitOp σ ρ)))
    (tr' : List (Program.Label σ ρ (Choice σ ρ) Tid)) (c' : Threads.Conf (Mem σ Tid) Tid (Pc σ ρ)) :
    Prop :=
  InAgreement c.mem tr c.pc tr' c'.pc ∧ c'.mem = c.mem

/-- **The provided methods do what the methods of the monitors do.** Every run of code that is generic
over the traits is indistinguishable from a run of code that calls the monitor directly, and every run of
direct code that keeps to the methods of the traits is indistinguishable from one of generic code.

**Proof sketch.** A run on one side is followed step by step on the other (`Lts.Run.follow`), with the
agreement of all places and the equality of the two memories as the relation that is kept. -/
theorem provided_methods_agree (maxInstant : ℕ) (s₀ : Setup σ) :
    (∀ (tr : List (Program.Label σ ρ (ClientChoice (TraitOp σ ρ)) Tid))
        (c : Threads.Conf (Mem σ Tid) Tid (ClientPc (Pc σ ρ) (TraitOp σ ρ))),
      (generic σ ρ maxInstant).program.Run s₀ tr c →
        ∃ tr' c', (program maxInstant).Run s₀ tr' c' ∧ (∀ t x, .chose t x ∈ tr' → x.ofTrait = true) ∧
          Indistinguishable tr c tr' c') ∧
    ∀ (tr' : List (Program.Label σ ρ (Choice σ ρ) Tid)) (c' : Threads.Conf (Mem σ Tid) Tid (Pc σ ρ)),
      (program maxInstant).Run s₀ tr' c' → (∀ t x, .chose t x ∈ tr' → x.ofTrait = true) →
        ∃ tr c, (generic σ ρ maxInstant).program.Run s₀ tr c ∧ Indistinguishable tr c tr' c' := by
  have hstart : Together ([] : List (Program.Label σ ρ (ClientChoice (TraitOp σ ρ)) Tid))
      ((generic σ ρ maxInstant).program.start s₀) [] ((program maxInstant).start s₀) :=
    ⟨.start maxInstant s₀, rfl⟩
  constructor
  · intro tr c h
    obtain ⟨tr', c', hr', hview, ⟨hagree, hmem⟩, hkeeps⟩ := Lts.Run.follow genericView directView
      (fun _ => True)
      (R := fun tr c tr' c' => Together tr c tr' c' ∧ ∀ t x, .chose t x ∈ tr' → x.ofTrait = true)
      ⟨hstart, by simp⟩
      (fun {tr c e c₁ l tr' c'} hr hr' hR _ hs => by
        obtain ⟨⟨hagree, hmem⟩, hkeeps⟩ := hR
        obtain ⟨m, pc⟩ := c
        obtain ⟨m', pc'⟩ := c'
        obtain rfl : m' = m := hmem
        obtain ⟨ls, c₁', hrun, hview, hmem, hnew, hnewKeeps⟩ := hagree.follow_generic hr' hs
        refine ⟨ls, c₁', hrun, hview, ⟨hnew, hmem⟩, fun t x hx => ?_⟩
        rcases List.mem_append.mp hx with hx | hx
        · exact hnewKeeps t x hx
        · exact hkeeps t x hx)
      h (fun _ _ => trivial)
    exact ⟨tr', c', hr', hkeeps, hagree.indistinguishable hmem hview⟩
  · intro tr' c' h hkeeps
    obtain ⟨tr, c, hr, hview, hagree, hmem⟩ := Lts.Run.follow directView genericView
      (fun l => ∀ t x, l = .chose t x → x.ofTrait = true) (R := fun tr' c' tr c => Together tr c tr' c')
      hstart
      (fun {tr' c' e c₁' l tr c} hr' hr hR hl hs => by
        obtain ⟨hagree, hmem⟩ := hR
        obtain ⟨m', pc'⟩ := c'
        obtain ⟨m, pc⟩ := c
        obtain rfl : m' = m := hmem
        obtain ⟨ls, c₁, hrun, hview, hmem, hnew⟩ := hagree.follow_direct hr' hs hl
        rw [← hmem] at hnew
        exact ⟨ls, c₁, hrun, hview, hnew, hmem.symm⟩)
      h (fun l hl t x heq => hkeeps t x (heq ▸ hl))
    exact ⟨tr, c, hr, hagree.indistinguishable hmem hview.symm⟩

/-- A wait of generic code parks, an update of generic code adds one, returns from `with_write`, and
notifies; the wait runs its action and returns. -/
def updatedThroughTrait : List (Threads.Event Bool (Option TimeError) (ClientChoice (TraitOp ℕ ℕ))
    (TimerEvent Bool)) :=
  let wait : TraitOp ℕ ℕ :=
    ⟨.waitWhile ⟨fun _ v => some (v == 0), fun v => (v + 10, some v)⟩, rfl⟩
  let update : TraitOp ℕ ℕ := ⟨.withWriteNotifyOne fun v => (v + 1, some v), rfl⟩
  .choose false (.op wait) :: List.replicate 4 (.run false none) ++
    .choose true (.op update) :: List.replicate 3 (.run true none) ++
    .choose true (.notify .one) :: List.replicate 3 (.run true none) ++
    List.replicate 6 (.run false none)

/-- Direct code shows the run of `updatedThroughTrait`, and generic code shows that one again. -/
theorem provided_methods_agree_notified :
    ∃ tr, ∃ c : Threads.Conf (Mem ℕ Bool) Bool (ClientPc (Pc ℕ ℕ) (TraitOp ℕ ℕ)),
      (generic ℕ ℕ 100).program.Run ⟨0, 0, true⟩ tr c ∧ results true tr = [0] ∧ results false tr = [1] ∧
      ∃ tr' c', (program 100).Run ⟨0, 0, true⟩ tr' c' ∧ c'.mem.value = 11 ∧
        (∀ t x, .chose t x ∈ tr' → x.ofTrait = true) ∧ Indistinguishable tr c tr' c' ∧
        ∃ tr₁ c₁, (generic ℕ ℕ 100).program.Run ⟨0, 0, true⟩ tr₁ c₁ ∧
          Indistinguishable tr₁ c₁ tr' c' := by
  obtain ⟨tr, c, hr, hp, -⟩ := (generic ℕ ℕ 100).program.threads.exists_run_of_play
    ((generic ℕ ℕ 100).program.start ⟨0, 0, true⟩) updatedThroughTrait
    (p := fun s => results true s.2 = [0] ∧ results false s.2 = [1] ∧ s.1.mem.value = 11) (by decide)
  simp only [decide_eq_true_eq] at hp
  obtain ⟨htrue, hfalse, hvalue⟩ := hp
  obtain ⟨tr', c', hr', hkeeps, hsame⟩ := (provided_methods_agree 100 _).1 tr c hr
  refine ⟨tr, c, hr, htrue, hfalse, tr', c', hr', ?_, hkeeps, hsame,
    (provided_methods_agree 100 _).2 tr' c' hr' hkeeps⟩
  rw [hsame.mem, hvalue]

end QubitLock.Blocking
