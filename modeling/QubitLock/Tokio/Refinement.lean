import QubitLock.Blocking.Program
import QubitLock.Library.Refinement
import QubitLock.Monitor.Conduct
import QubitLock.Monitor.Core
import QubitLock.Monitor.TimedWait
import QubitLock.Tokio.Progress

set_option relaxedAutoImplicit false
set_option autoImplicit false

/-!
# The Tokio monitor refines the blocking monitor

A task of a Tokio monitor whose futures are never dropped does what a thread of a blocking monitor can
do. Where a future is polled and finds nothing new, the thread sleeps; where a task has got the status
of its suspension and polls for the lock, the thread has woken and waits for it. The two loops ask the
Timer at different places: a blocking wait asks before it registers, before it releases the lock and
after it has the lock back, a Tokio wait once with the lock released and once more with the lock. The
Timer of the thread completes when the task learns of the completion, so the thread learns nothing
earlier than the task.

## Main definitions

* `Tokio.shadow` — where the thread is that stands for a task.
* `Tokio.due` — what the Timer future of the thread has come to.
* `Tokio.shown`, `Blocking.shown` — the labels that both monitors show.
* `Tokio.Shadowed` — a run of the blocking monitor that stands for a run of the Tokio monitor.

## Main results

* `Tokio.refines_blocking` — every run without cancellation is shown by a blocking monitor.
-/

namespace QubitLock

variable {σ ρ Tid : Type}

/-- What a blocking monitor shows: everything but how its threads wait. -/
def Blocking.shown : Program.Label σ ρ (Blocking.Choice σ ρ) Tid →
    Option (Program.Label σ ρ (Blocking.Op σ ρ) Tid)
  | .did t d => if d.isWaiting then none else some (.did t d)
  | .chose t (.call op) => some (.chose t op)
  | .ambient (.ticked d) => some (.ambient (.ticked d))
  | _ => none

namespace Tokio

/-- The same operation of a blocking monitor. -/
def Op.blocking : Op σ ρ → Blocking.Op σ ρ
  | .withReadAsync f => .withRead f
  | .withWriteAsync f => .withWrite f
  | .withWriteNotifyOneAsync f => .withWriteNotifyOne f
  | .withWriteNotifyAllAsync f => .withWriteNotifyAll f
  | .notifyOne => .notifyOne
  | .notifyAll => .notifyAll
  | .waitWhileAsync w => .waitWhile w
  | .waitWhileForAsync timeout w => .waitWhileFor timeout w
  | .waitWhileWithDeadlineAsync deadline w => .waitWhileWithDeadline deadline w

/-- What a Tokio monitor shows: everything but how its tasks wait. -/
def shown : Program.Label σ ρ (Choice σ ρ) Tid → Option (Program.Label σ ρ (Blocking.Op σ ρ) Tid)
  | .did t d => if d.isWaiting then none else some (.did t d)
  | .chose t (.call op) => some (.chose t op.blocking)
  | .ambient (.ticked d) => some (.ambient (.ticked d))
  | _ => none

/-- What an operation does once it has the state lock. -/
def Entry.blocking : Entry σ ρ → Blocking.Entry σ ρ
  | .read f => .read f
  | .write f n => .write f n
  | .check w => .check w
  | .sample timeout w => .sample timeout w
  | .checkDeadline deadline w => .checkDeadline deadline w

/-- Where the thread is that stands for a task; `a` is the waiter of its latest suspension. -/
def shadow (a : ℕ) : Pc σ ρ → Blocking.Pc σ ρ
  | .idle | .cancelRegistration _ _ | .cancelled _ => .idle
  | .created e | .lock e | .lockPending e => .acquire e.blocking
  | .read f => .read f
  | .write f n => .write f n
  | .writeDone n out => .notifyRelease n out
  | .notify n out => .notify n out
  | .signal b rest out => .signal b rest out
  | .check w n => .check w n
  | .sample timeout w => .sample timeout w
  | .checkFor timeout startedAt w => .checkFor timeout startedAt w
  | .checkDeadline deadline w => .checkDeadline deadline w
  | .timerAt deadline w early => .timerAt deadline (.loop w 1) early
  | .earlyPoll w => .earlyPoll w
  -- the polls of a timed guard wait that a Tokio wait does not make
  | .register timed w n =>
    if timed then .pollNoWaiter (.loop w n) else .register false (.loop w n)
  | .dropGuard timed w n g =>
    if timed then .pollRegistered (.loop w n) g else .release false (.loop w n) g
  | .pollDeadline w n g => .park true (.loop w n) g
  | .pollNotified timed w n g | .waitPending timed w n g => .park timed (.loop w n) g
  | .dropRegistration w n g status => .dropRegistration status.isSome (.loop w n) g
  | .relock w n status | .relockPending w n status =>
    if status.isSome then .reacquireTimed (.loop w n) a else .reacquire (.loop w n)
  | .deadlineReached w n => .finalPoll (.loop w n) a
  | .recheck w n reached => .recheck w n (if reached then .timedOut else .woken)
  | .act w timed => .act w timed
  | .finish out => .finish out
  | .done out => .done out
  | .unwindGuard => .unwindGuard

@[simp] lemma shadow_begin (a : ℕ) (op : Op σ ρ) : shadow a op.begin = op.blocking.begin := by
  cases op <;> rfl

@[simp] lemma shadow_entry (a : ℕ) (e : Entry σ ρ) : shadow a e.pc = e.blocking.pc := by
  cases e <;> rfl

@[simp] lemma shadow_signalAll (a : ℕ) (as : List ℕ) (out : Outcome ρ) :
    shadow a (signalAll as out : Pc σ ρ) = Blocking.wakeAll as out := by
  cases as <;> rfl

@[simp] lemma shadow_pollWait (a : ℕ) (timed : Bool) (w : Condition σ ρ) (n : ℕ)
    (g : Registration) : shadow a (pollWait timed w n g) = .park timed (.loop w n) g := by
  cases timed <;> rfl

/-- A poll moves a future only. -/
lemma shadow_poll {p p' : Pc σ ρ} (h : jump p .poll = some p') (a : ℕ) : shadow a p' = shadow a p := by
  cases p <;> cases h
  case waitPending => exact shadow_pollWait _ _ _ _ _
  all_goals rfl

/-! ## Steps that both programs make -/

/-- The thread makes the same report as the task. -/
def InStep : Pc σ ρ → Bool
  | .lock _ | .earlyPoll _ | .register true _ _ | .dropGuard true _ _ _ | .pollDeadline _ _ _ |
    .pollNotified _ _ _ _ | .relock _ _ _ | .deadlineReached _ _ | .cancelRegistration _ _ |
    .cancelled _ => false
  | _ => true

/-- A report, with its continuation rewritten. -/
lemma Reports.congr {K : Type} {c : Cmd σ ρ K} {d : Did σ ρ} {k k' : K} (h : c.Reports d k)
    (hk : k = k') : c.Reports d k' :=
  hk ▸ h

/-- **Where the programs are in step, the thread makes the report of the task.**

**Proof sketch.** By cases on the place of the task. Where both programs are in step the primitives are
the same, and so are the continuations, after the panic of a closure and after an error of the Timer
too. -/
lemma reports_shadow {maxInstant : ℕ} {p p' : Pc σ ρ} {d : Did σ ρ} (hp : InStep p = true)
    (h : (code maxInstant p).Reports d p') (a : ℕ) :
    ∃ a', (Blocking.code maxInstant (shadow a p)).Reports d (shadow a' p') := by
  cases p with
  | idle | created | lockPending | waitPending | relockPending => cases h
  | lock | earlyPoll | pollDeadline | pollNotified | relock | deadlineReached | cancelRegistration |
    cancelled => cases hp
  | read f =>
    cases h with
    | read _ _ v => exact ⟨a, Reports.congr (.read f _ v) (by cases f v <;> rfl)⟩
  | write f n =>
    cases h with
    | write _ _ v =>
      refine ⟨a, Reports.congr (.write f _ v) ?_⟩
      cases (f v).2 <;> cases n <;> rfl
  | writeDone n out =>
    cases h
    exact ⟨a, .releaseGuard _⟩
  | notify n out =>
    cases n <;> cases h
    · exact ⟨a, Reports.congr (.takeOne _ _) (shadow_signalAll a _ out).symm⟩
    · exact ⟨a, Reports.congr (.takeAll _ _) (shadow_signalAll a _ out).symm⟩
  | signal b rest out =>
    cases h
    exact ⟨a, Reports.congr (.signal _ _) (shadow_signalAll a rest out).symm⟩
  | check w n =>
    cases h with
    | check _ _ v =>
      refine ⟨a, Reports.congr (.check _ _ v) ?_⟩
      rcases w.waiting n v with _ | _ | _ <;> rfl
  | sample timeout w =>
    cases h
    exact ⟨a, .now _ _⟩
  | checkFor timeout startedAt w =>
    cases h with
    | check _ _ v =>
      refine ⟨a, Reports.congr (.check _ _ v) ?_⟩
      rcases w.waiting 0 v with _ | _ | _
      · rfl
      · rfl
      · dsimp only
        split
        · rfl
        · cases checkedAdd maxInstant startedAt timeout <;> rfl
  | checkDeadline deadline w =>
    cases h with
    | check _ _ v =>
      refine ⟨a, Reports.congr (.check _ _ v) ?_⟩
      rcases w.waiting 0 v with _ | _ | _ <;> rfl
  | timerAt deadline w early =>
    cases h with
    | timerAt _ _ r =>
      refine ⟨a, Reports.congr (.timerAt _ _ r) ?_⟩
      cases r <;> cases early <;> rfl
  | register timed w n =>
    cases timed with
    | true => cases hp
    | false =>
      cases h with
      | register _ g => exact ⟨a, Reports.congr (.register _ g) (by cases g <;> rfl)⟩
  | dropGuard timed w n g =>
    cases timed with
    | true => cases hp
    | false =>
      cases h
      exact ⟨a, .releaseGuard _⟩
  | dropRegistration w n g status =>
    cases h
    exact ⟨g.waiter, Reports.congr (.unregister _ _ _) (by cases status <;> rfl)⟩
  | recheck w n reached =>
    cases h with
    | check _ _ v =>
      refine ⟨a, Reports.congr (.check _ _ v) ?_⟩
      rcases w.waiting n v with _ | _ | _ <;> cases reached <;> rfl
  | act w timed =>
    cases h with
    | write _ _ v =>
      refine ⟨a, Reports.congr (.write _ _ v) ?_⟩
      cases (w.f v).2 <;> rfl
  | finish | done =>
    cases h
    exact ⟨a, .ret _ _ _ _⟩
  | unwindGuard =>
    cases h
    exact ⟨a, .unwind _⟩

/-! ## The Timer futures -/

/-- The completion that a task has learned of with the status of its suspension. -/
def statusDue : Option (Except TimeError WaitTimeoutStatus) → Option (Except TimeError Unit)
  | some (.ok .timedOut) => some (.ok ())
  | some (.error e) => some (.error e)
  | some (.ok .woken) | none => none

/-- What the Timer future of the thread has come to: the completion that the task has learned of. -/
def due : Pc σ ρ → Option (Except TimeError Unit)
  | .dropRegistration _ _ _ status | .relock _ _ status | .relockPending _ _ status =>
    statusDue status
  | .recheck _ _ true => some (.ok ())
  | _ => none

/-- The waiter that the Timer future of the thread wakes while the thread is parked. -/
def wakesUp : Pc σ ρ → Option ℕ
  | .pollDeadline _ _ g | .pollNotified true _ _ g | .waitPending true _ _ g => some g.waiter
  | _ => none

/-- The Timer future of the thread stands for the one of the task. -/
def Clocked (m n : Mem σ Tid) (t : Tid) (p : Pc σ ρ) : Prop :=
  (typ p).timer = true → ∃ f f', m.future t = some f ∧ n.future t = some f' ∧
    f'.deadline = f.deadline ∧ f'.result = due p ∧
    ∀ a, wakesUp p = some a → f'.waker = some (.waiter a)

/-- A place without a Timer future has nothing to keep. -/
lemma Clocked.of_timer_eq_false {m n : Mem σ Tid} {t : Tid} {p : Pc σ ρ}
    (h : (typ p).timer = false) : Clocked m n t p := by
  intro ht
  rw [h] at ht
  cases ht

/-- Futures that stay as they are stand for each other at a place with the same due. -/
lemma Clocked.of_eq {m n m' n' : Mem σ Tid} {t : Tid} {p p' : Pc σ ρ} (h : Clocked m n t p)
    (hm : m'.future t = m.future t) (hn : n'.future t = n.future t)
    (htimer : (typ p').timer = true → (typ p).timer = true) (hdue : due p' = due p)
    (hwakes : wakesUp p' = wakesUp p) : Clocked m' n' t p' := by
  intro ht
  rw [hm, hn, hdue, hwakes]
  exact h (htimer ht)

variable [DecidableEq Tid]

/-- The thread moves from `q` to `q'` and shows nothing: it only finds out how it waits, or its Timer
future completes and wakes it. If `hon` holds, its Timer is honest. -/
def Prepares (maxInstant : ℕ) (hon : Prop) (t : Tid) (n : Mem σ Tid) (q : Blocking.Pc σ ρ)
    (n' : Mem σ Tid) (q' : Blocking.Pc σ ρ) : Prop :=
  ∃ ls, (Blocking.program maxInstant).threads.Accompanied t n q ls n' q' ∧
    ls.filterMap Blocking.shown = [] ∧ n'.core = n.core ∧
    (∀ b, n.signalled b = true → n'.signalled b = true) ∧
    (∀ u, u ≠ t → n'.future u = n.future u) ∧
    (hon → ∀ u deadline now, .ambient (.completed u deadline now (.ok ())) ∈ ls → deadline ≤ now)

/-- **How the thread answers** a report of its task that leads to the memory `m'` and the place `p'`: it
shows the same, and ends where it stands for the task again. -/
def Answers (maxInstant : ℕ) (hon : Prop) (t : Tid) (n : Mem σ Tid) (q : Blocking.Pc σ ρ) (d : Did σ ρ)
    (m' : Mem σ Tid) (p' : Pc σ ρ) : Prop :=
  ∃ ls n' a, (Blocking.program maxInstant).threads.Accompanied t n q ls n' (shadow a p') ∧
    ls.filterMap Blocking.shown = [.did t d].filterMap shown ∧ m'.core = n'.core ∧
    (∀ b, m'.signalled b = true → n'.signalled b = true) ∧ Clocked m' n' t p' ∧
    (∀ u, u ≠ t → n'.future u = n.future u) ∧
    (hon → ∀ u deadline now, .ambient (.completed u deadline now (.ok ())) ∈ ls → deadline ≤ now)

section Prepares

variable {maxInstant : ℕ} {hon : Prop} {n n' n'' : Mem σ Tid} {t : Tid} {q q' q'' : Blocking.Pc σ ρ}
  {f : TimerFuture}

lemma Prepares.refl : Prepares maxInstant hon t n q n q :=
  ⟨[], .nil, rfl, rfl, fun _ hb => hb, fun _ _ => rfl, fun _ _ _ _ hmem => by cases hmem⟩

/-- A poll of the Timer future. -/
lemma Prepares.poll (h : Prepares maxInstant hon t n q n' q') {w : Waker}
    {k : Poll → Blocking.Pc σ ρ} (hq : Blocking.code maxInstant q' = .pollTimer w k)
    (hf : n'.future t = some f) {r : Poll} (hr : f.poll = r) :
    Prepares maxInstant hon t n q (n'.effect t (.polled w r : Did σ ρ)) (k r) := by
  obtain ⟨ls, hacc, hshown, hcore, hlatch, hother, hhon⟩ := h
  have hreports : (Blocking.code maxInstant q').Reports (.polled w r) (k r) := by
    rw [hq]
    exact .pollTimer w k r
  obtain ⟨fault, hfire⟩ := Cmd.fire_of_reports hreports ⟨f, hf, hr.symm⟩ (by simp)
  refine ⟨_, hacc.fire fault hfire, hshown, hcore, hlatch, fun u hu => ?_, fun h u dl now hmem => ?_⟩
  · exact (Mem.effect_future_ne (d := (.polled w r : Did σ ρ)) hu).trans (hother u hu)
  · exact hhon h u dl now (by simpa using hmem)

/-- The Timer future completes. -/
lemma Prepares.complete (h : Prepares maxInstant hon t n q n' q') (hf : n'.future t = some f)
    (hr : f.result = none) {r : Except TimeError Unit}
    (hprompt : hon → r = .ok () → f.deadline ≤ n'.clock) :
    Prepares maxInstant hon t n q (n'.complete t f r) q' := by
  obtain ⟨ls, hacc, hshown, hcore, hlatch, hother, hhon⟩ := h
  have htimer : n'.timer (.complete t r) =
      some (n'.complete t f r, .completed t f.deadline n'.clock r) := by
    simp [Mem.timer, hf, hr]
  refine ⟨_, hacc.ambient (.complete t r) htimer, hshown, hcore, hlatch, fun u hu => ?_,
    fun h u dl now hmem => ?_⟩
  · exact (Function.update_of_ne hu _ _).trans (hother u hu)
  · rcases List.mem_cons.mp hmem with heq | hmem
    · cases heq
      exact hprompt h rfl
    · exact hhon h u dl now hmem

/-- The Timer wakes a waiter whose waker it has taken. -/
lemma Prepares.wake (h : Prepares maxInstant hon t n q n' q') {a : ℕ} (ha : a ∈ n'.inFlight) :
    Prepares maxInstant hon t n q { n' with
      signalled := Function.update n'.signalled a true
      inFlight := n'.inFlight.erase a } q' := by
  obtain ⟨ls, hacc, hshown, hcore, hlatch, hother, hhon⟩ := h
  have htimer : n'.timer (.wake a) = some (_, .timerWoke a) := if_pos ha
  refine ⟨_, hacc.ambient (.wake a) htimer, hshown, hcore, fun b hb => ?_, hother,
    fun h u dl now hmem => ?_⟩
  · by_cases hba : b = a
    · rw [hba]
      exact Function.update_self _ _ _
    · exact (Function.update_of_ne hba _ _).trans (hlatch b hb)
  · exact hhon h u dl now (by simpa using hmem)

/-- A signalled thread wakes up. -/
lemma Prepares.woke (h : Prepares maxInstant hon t n q n' q') {a : ℕ}
    (hq : Blocking.code maxInstant q' = .park a q'') (ha : n'.signalled a = true) :
    Prepares maxInstant hon t n q n' q'' := by
  obtain ⟨ls, hacc, hshown, hcore, hlatch, hother, hhon⟩ := h
  have hfire : (Blocking.code maxInstant q').fire n' t none = some (.woke a, q'') := by
    rw [hq]
    exact if_pos ha
  exact ⟨_, hacc.fire none hfire, hshown, hcore, hlatch, hother,
    fun h u dl now hmem => hhon h u dl now (by simpa using hmem)⟩

end Prepares

section Answers

variable {maxInstant : ℕ} {hon : Prop} {m n n' n'' : Mem σ Tid} {t : Tid} {d : Did σ ρ}
  {p p' : Pc σ ρ} {q q' q'' : Blocking.Pc σ ρ} {a : ℕ}

/-- A poll stores its waker at most. -/
lemma future_effect_polled {f : TimerFuture} (hf : n.future t = some f) (w : Waker) (r : Poll) :
    (n.effect t (.polled w r : Did σ ρ)).future t = some (f.polled w) := by
  simp [Mem.effect, hf]

/-- A signal reaches both sides. -/
lemma latch_effect (hlatch : ∀ b, m.signalled b = true → n.signalled b = true) (d : Did σ ρ) (b : ℕ)
    (hb : (m.effect t d).signalled b = true) : (n.effect t d).signalled b = true := by
  rw [m.effect_signalled] at hb
  rw [n.effect_signalled]
  cases d with
  | signalled a =>
    by_cases hab : b = a
    · rw [hab]
      exact Function.update_self _ _ _
    · dsimp only at hb ⊢
      rw [Function.update_of_ne hab] at hb ⊢
      exact hlatch b hb
  | _ => exact hlatch b hb

/-- The thread shows nothing where the task only finds out how it waits. -/
lemma Prepares.answers (h : Prepares maxInstant hon t n q n' (shadow a p')) (hd : d.isWaiting = true)
    (hcore : m.core = n.core) (hlatch : ∀ b, m.signalled b = true → n.signalled b = true)
    (hclock : Clocked (m.effect t d) n' t p') :
    Answers maxInstant hon t n q d (m.effect t d) p' := by
  obtain ⟨ls, hacc, hshown, hcore', hlatch', hother, hhon⟩ := h
  refine ⟨ls, n', a, hacc, ?_, ?_, fun b hb => hlatch' b (hlatch b ?_), hclock, hother, hhon⟩
  · rw [hshown]
    simp [shown, hd]
  · rw [m.core_effect_of_isWaiting t hd, hcore, hcore']
  · rw [m.effect_signalled] at hb
    cases d with
    | signalled => cases hd
    | _ => exact hb

/-- The thread makes the report of the task, perhaps with hidden steps before and after it. -/
lemma Prepares.answers_report {n₁ n₂ : Mem σ Tid} (h₁ : Prepares maxInstant hon t n q n₁ q')
    (hr : (Blocking.code maxInstant q').Reports d q'') (hd : d.isWaiting = false) (ha : m.Allows t d)
    (h₂ : Prepares maxInstant hon t (n₁.effect t d) q'' n₂ (shadow a p'))
    (hcore : m.core = n.core) (hlatch : ∀ b, m.signalled b = true → n.signalled b = true)
    (hclock : Clocked (m.effect t d) n₂ t p') :
    Answers maxInstant hon t n q d (m.effect t d) p' := by
  obtain ⟨ls₁, hacc₁, hshown₁, hcore₁, hlatch₁, hother₁, hhon₁⟩ := h₁
  obtain ⟨ls₂, hacc₂, hshown₂, hcore₂, hlatch₂, hother₂, hhon₂⟩ := h₂
  have hsame : m.core = n₁.core := hcore.trans hcore₁.symm
  obtain ⟨fault, hfire⟩ := Cmd.fire_of_reports hr (Mem.allows_of_core hsame hd ha)
    (by rintro rfl; cases hd)
  refine ⟨_, n₂, a, (hacc₁.fire fault hfire).append hacc₂, ?_, ?_, ?_, hclock, ?_, ?_⟩
  · rw [List.filterMap_append, hshown₂]
    simp [Blocking.shown, shown, hd, hshown₁]
  · rw [hcore₂]
    exact Mem.core_effect_congr hsame t d
  · exact fun b hb => hlatch₂ b (latch_effect (fun b hb => hlatch₁ b (hlatch b hb)) d b hb)
  · exact fun u hu => (hother₂ u hu).trans ((Mem.effect_future_ne hu).trans (hother₁ u hu))
  · intro h u dl now hmem
    rcases List.mem_append.mp hmem with hmem | hmem
    · exact hhon₂ h u dl now hmem
    · exact hhon₁ h u dl now (by simpa using hmem)

/-- In step nobody waits. -/
lemma isWaiting_of_inStep (hp : InStep p = true) (h : (code maxInstant p).Reports d p') :
    d.isWaiting = false := by
  cases p with
  | lock | earlyPoll | pollDeadline | pollNotified | relock | deadlineReached | cancelRegistration |
    cancelled => cases hp
  | register timed | dropGuard timed =>
    cases timed
    · cases h
      rfl
    · cases hp
  | notify n out => cases n <;> cases h <;> rfl
  | _ => cases h <;> rfl

/-- Only `Timer::at` brings a Timer future. -/
lemma timer_of_reports (h : (code maxInstant p).Reports d p') (hp : (typ p).timer = false)
    (hd : ∀ deadline r, d ≠ .timerMade deadline r) : (typ p').timer = false := by
  obtain ⟨-, hforgets⟩ := code_checks maxInstant p d p' h
  refine Bool.eq_false_iff.mpr fun htimer => ?_
  have hafter := hforgets.timer htimer
  rw [Res.after_timer] at hafter
  cases d with
  | timerMade deadline r => exact hd deadline r rfl
  | returned | guardReturned | unwound => cases hafter
  | _ =>
    rw [hp] at hafter
    cases hafter

/-- In step the Timer futures stay as they are, or are made by both sides.

**Proof sketch.** Only the request for a future touches the futures there, and it makes the same one on
both sides; the other steps go to places without a Timer or keep both futures. -/
lemma clocked_inStep (hclock : Clocked m n t p) (hp : InStep p = true)
    (h : (code maxInstant p).Reports d p') : Clocked (m.effect t d) (n.effect t d) t p' := by
  cases p with
  | timerAt deadline w early =>
    cases h with
    | timerAt _ _ r =>
      cases r with
      | error e => exact .of_timer_eq_false rfl
      | ok _ =>
        intro _
        refine ⟨.at_ deadline, .at_ deadline, Function.update_self _ _ _, Function.update_self _ _ _,
          rfl, ?_, ?_⟩
        · cases early <;> rfl
        · cases early <;> exact fun a ha => by cases ha
  | dropRegistration w n g status =>
    cases h
    exact hclock.of_eq rfl rfl id rfl rfl
  | recheck w n reached =>
    cases h with
    | check _ _ v =>
      rcases w.waiting n v with _ | _ | _
      · exact .of_timer_eq_false rfl
      · exact .of_timer_eq_false rfl
      · cases reached with
        | true => exact .of_timer_eq_false rfl
        | false => exact hclock.of_eq rfl rfl (fun _ => rfl) rfl rfl
  | register timed | dropGuard timed =>
    cases timed with
    | true => cases hp
    | false =>
      refine .of_timer_eq_false (timer_of_reports h rfl ?_)
      rintro deadline r rfl
      cases h
  | notify n out =>
    refine .of_timer_eq_false (timer_of_reports h rfl ?_)
    rintro deadline r rfl
    cases n <;> cases h
  | lock | earlyPoll | pollDeadline | pollNotified | relock | deadlineReached | cancelRegistration |
    cancelled => cases hp
  | idle | created | lockPending | waitPending | relockPending => cases h
  | _ =>
    refine .of_timer_eq_false (timer_of_reports h rfl ?_)
    rintro deadline r rfl
    cases h


/-- **In step** the thread makes the same report. -/
lemma answers_inStep (hcore : m.core = n.core)
    (hlatch : ∀ b, m.signalled b = true → n.signalled b = true) (hclock : Clocked m n t p)
    (hp : InStep p = true) (h : (code maxInstant p).Reports d p') (ha : m.Allows t d) :
    Answers maxInstant hon t n (shadow a p) d (m.effect t d) p' := by
  obtain ⟨a', hreports⟩ := reports_shadow hp h a
  exact Prepares.refl.answers_report hreports (isWaiting_of_inStep hp h) ha .refl hcore hlatch
    (clocked_inStep hclock hp h)

/-- A place whose Timer future a poll has left as it was. -/
lemma Clocked.polled {f f' : TimerFuture} {w w' : Waker} {r r' : Poll} (hf : m.future t = some f)
    (hf' : n.future t = some f') (hdeadline : f'.deadline = f.deadline) (hresult : f'.result = due p')
    (hwakes : ∀ b, wakesUp p' = some b → (f'.polled w').waker = some (.waiter b)) :
    Clocked (m.effect t (.polled w r : Did σ ρ)) (n.effect t (.polled w' r' : Did σ ρ)) t p' := by
  intro _
  refine ⟨_, _, future_effect_polled hf w r, future_effect_polled hf' w' r', ?_, ?_, hwakes⟩
  · rw [TimerFuture.polled_deadline, TimerFuture.polled_deadline, hdeadline]
  · rw [TimerFuture.polled_result, hresult]

section Differences

variable (hcore : m.core = n.core) (hlatch : ∀ b, m.signalled b = true → n.signalled b = true)
  (ha : m.Allows t d)

include hcore hlatch ha

/-- The first acquisition of the state lock. -/
lemma answers_lock {e : Entry σ ρ} (h : (code maxInstant (.lock e)).Reports d p') :
    Answers maxInstant hon t n (shadow a (.lock e)) d (m.effect t d) p' := by
  cases h with
  | tryLock =>
    exact Prepares.refl.answers_report (Reports.congr (.lock _) (shadow_entry a e).symm) rfl ha .refl
      hcore hlatch (.of_timer_eq_false (by simp [Res.guard, Res.idle]))
  | contended => exact Prepares.refl.answers rfl hcore hlatch (.of_timer_eq_false rfl)

/-- The registration of a timed wait: the thread polls once before it. -/
lemma answers_register {w : Condition σ ρ} {k : ℕ} (hclock : Clocked m n t (.register true w k : Pc σ ρ))
    (h : (code maxInstant (.register true w k)).Reports d p') :
    Answers maxInstant hon t n (shadow a (.register true w k)) d (m.effect t d) p' := by
  obtain ⟨f, f', hf, hf', hdeadline, hresult, -⟩ := hclock rfl
  have hpoll : Prepares maxInstant hon t n (shadow a (.register true w k)) _ _ :=
    Prepares.refl.poll rfl hf' (TimerFuture.poll_eq_pending.mpr hresult)
  cases h with
  | register _ g =>
    cases g with
    | none =>
      exact hpoll.answers_report (.register _ none) rfl ha .refl hcore hlatch
        (.of_timer_eq_false rfl) (a := a)
    | some g =>
      refine hpoll.answers_report (.register _ (some g)) rfl ha .refl hcore hlatch (fun _ => ?_) (a := a)
      refine ⟨f, _, hf, future_effect_polled (ρ := ρ) hf' .noop .pending, ?_, ?_, ?_⟩
      · exact (TimerFuture.polled_deadline _ _).trans hdeadline
      · exact (TimerFuture.polled_result _ _).trans hresult
      · intro b hb
        cases hb

/-- The release of the state lock by a timed wait: the thread polls with its waker before it. -/
lemma answers_dropGuard {w : Condition σ ρ} {k : ℕ} {g : Registration}
    (hclock : Clocked m n t (.dropGuard true w k g : Pc σ ρ))
    (h : (code maxInstant (.dropGuard true w k g)).Reports d p') :
    Answers maxInstant hon t n (shadow a (.dropGuard true w k g)) d (m.effect t d) p' := by
  obtain ⟨f, f', hf, hf', hdeadline, hresult, -⟩ := hclock rfl
  have hpoll : Prepares maxInstant hon t n (shadow a (.dropGuard true w k g)) _ _ :=
    Prepares.refl.poll rfl hf' (TimerFuture.poll_eq_pending.mpr hresult)
  cases h
  refine hpoll.answers_report (.releaseGuard _) rfl ha .refl hcore hlatch (fun _ => ?_) (a := a)
  refine ⟨f, _, hf, future_effect_polled (ρ := ρ) hf' (.waiter g.waiter) .pending, ?_, ?_, ?_⟩
  · exact (TimerFuture.polled_deadline _ _).trans hdeadline
  · exact (TimerFuture.polled_result _ _).trans hresult
  · intro b hb
    cases hb
    exact TimerFuture.polled_waker hresult

/-- The poll of the notification: the thread wakes up when the task has been notified. -/
lemma answers_pollNotified {timed : Bool} {w : Condition σ ρ} {k : ℕ} {g : Registration}
    (hclock : Clocked m n t (.pollNotified timed w k g : Pc σ ρ))
    (h : (code maxInstant (.pollNotified timed w k g)).Reports d p') :
    Answers maxInstant hon t n (shadow a (.pollNotified timed w k g)) d (m.effect t d) p' := by
  cases h with
  | pollNotified _ _ b =>
    cases b with
    | false =>
      have hstay : Clocked m n t (.waitPending timed w k g : Pc σ ρ) := by
        cases timed <;> exact hclock
      exact Prepares.refl.answers rfl hcore hlatch hstay (a := a)
    | true =>
      have hsignalled : m.signalled g.waiter = true := Eq.symm ha
      have hwoke : Prepares maxInstant hon t n (shadow a (.pollNotified timed w k g)) n
          (.dropRegistration timed (.loop w k) g) :=
        Prepares.refl.woke rfl (hlatch _ hsignalled)
      cases timed with
      | false => exact hwoke.answers rfl hcore hlatch (.of_timer_eq_false rfl) (a := a)
      | true =>
        obtain ⟨f, f', hf, hf', hdeadline, hresult, -⟩ := hclock rfl
        refine hwoke.answers rfl hcore hlatch (fun _ => ?_) (a := a)
        exact ⟨f, f', hf, hf', hdeadline, hresult, fun b hb => by cases hb⟩

/-- The reacquisition of the state lock: with a completion the thread polls once more.

**Proof sketch.** By what the task knows of its Timer. The thread has the lock with the same step; if
the future is complete it polls once more, which shows nothing, and learns the same result. -/
lemma answers_relock {w : Condition σ ρ} {k : ℕ} {status : Option (Except TimeError WaitTimeoutStatus)}
    (hclock : Clocked m n t (.relock w k status : Pc σ ρ))
    (h : (code maxInstant (.relock w k status)).Reports d p') :
    Answers maxInstant hon t n (shadow a (.relock w k status)) d (m.effect t d) p' := by
  cases h with
  | contended =>
    exact Prepares.refl.answers rfl hcore hlatch (hclock.of_eq rfl rfl id rfl rfl) (a := a)
  | tryLock =>
    cases status with
    | none =>
      exact Prepares.refl.answers_report (.lock _) rfl ha .refl hcore hlatch (.of_timer_eq_false rfl)
        (a := a)
    | some status =>
      obtain ⟨f, f', hf, hf', hdeadline, hresult, -⟩ := hclock rfl
      -- the thread has the lock, and polls with the waker of its latest suspension
      have hlocked : (n.effect t (.locked : Did σ ρ)).future t = some f' := hf'
      have hpolled : ∀ {r : Poll}, f'.poll = r → Prepares maxInstant hon t
          (n.effect t (.locked : Did σ ρ)) (.finalPoll (.loop w k) a) _ _ :=
        fun hr => Prepares.refl.poll rfl hlocked hr
      rcases status with e | _ | _
      · exact Prepares.refl.answers_report (.lock _) rfl ha
          (hpolled (TimerFuture.poll_eq_ready.mpr hresult)) hcore hlatch (.of_timer_eq_false rfl)
          (a := a)
      · exact Prepares.refl.answers_report (.lock _) rfl ha .refl hcore hlatch
          (fun _ => ⟨f, f', hf, hf', hdeadline, hresult, fun b hb => by cases hb⟩) (a := a)
      · refine Prepares.refl.answers_report (.lock _) rfl ha
          (hpolled (TimerFuture.poll_eq_ready.mpr hresult)) hcore hlatch (fun _ => ?_) (a := a)
        refine ⟨f, _, hf, future_effect_polled (ρ := ρ) hlocked _ _, ?_, ?_, ?_⟩
        · exact (TimerFuture.polled_deadline _ _).trans hdeadline
        · exact (TimerFuture.polled_result _ _).trans hresult
        · intro b hb
          cases hb

section Polls

variable (hprompt : hon → ∀ f, m.future t = some f → f.result = some (.ok ()) → f.deadline ≤ m.clock)

include hprompt

omit hlatch ha in
/-- When the task learns of the completion of its Timer future, the one of the thread completes. -/
lemma completes {f f' : TimerFuture} (hf : m.future t = some f) (hf' : n.future t = some f')
    (hdeadline : f'.deadline = f.deadline) (hresult : f'.result = none) {r : Except TimeError Unit}
    (hr : f.result = some r) : Prepares maxInstant hon t n q (n.complete t f' r) q := by
  refine Prepares.refl.complete hf' hresult fun h hok => ?_
  subst hok
  have hclock : m.core.clock = n.core.clock := by rw [hcore]
  rw [hdeadline, show n.clock = m.clock from hclock.symm]
  exact hprompt h f hf hr

/-- The poll of `wait_while_with_deadline` right after it has the Timer future. -/
lemma answers_earlyPoll {w : Condition σ ρ} (hclock : Clocked m n t (.earlyPoll w : Pc σ ρ))
    (h : (code maxInstant (.earlyPoll w)).Reports d p') :
    Answers maxInstant hon t n (shadow a (.earlyPoll w)) d (m.effect t d) p' := by
  obtain ⟨f, f', hf, hf', hdeadline, hresult, -⟩ := hclock rfl
  cases h with
  | pollTimer _ _ r =>
    obtain ⟨f₀, hf₀, rfl⟩ := ha
    obtain rfl : f₀ = f := Option.some.inj (hf₀.symm.trans hf)
    cases hpoll : f₀.poll with
    | pending =>
      have hpending : Prepares maxInstant hon t n (shadow a (.earlyPoll w)) _ _ :=
        Prepares.refl.poll rfl hf' (TimerFuture.poll_eq_pending.mpr hresult)
      exact hpending.answers rfl hcore hlatch
        (.polled hf hf' hdeadline hresult fun b hb => by cases hb) (a := a)
    | ready r =>
      have hdone : Prepares maxInstant hon t n (shadow a (.earlyPoll w)) _ _ :=
        (completes hcore hprompt hf hf' hdeadline hresult (TimerFuture.poll_eq_ready.mp hpoll)).poll
          rfl (Function.update_self _ _ _) rfl
      cases r <;> exact hdone.answers rfl hcore hlatch (.of_timer_eq_false rfl) (a := a)

/-- The poll of the deadline with the lock released: a completion wakes the thread. -/
lemma answers_pollDeadline {w : Condition σ ρ} {k : ℕ} {g : Registration}
    (hclock : Clocked m n t (.pollDeadline w k g : Pc σ ρ))
    (h : (code maxInstant (.pollDeadline w k g)).Reports d p') :
    Answers maxInstant hon t n (shadow a (.pollDeadline w k g)) d (m.effect t d) p' := by
  obtain ⟨f, f', hf, hf', hdeadline, hresult, hwaker⟩ := hclock rfl
  cases h with
  | pollTimer _ _ r =>
    obtain ⟨f₀, hf₀, rfl⟩ := ha
    obtain rfl : f₀ = f := Option.some.inj (hf₀.symm.trans hf)
    cases hpoll : f₀.poll with
    | pending =>
      refine Prepares.refl.answers rfl hcore hlatch (fun _ => ?_) (a := a)
      exact ⟨_, f', future_effect_polled (ρ := ρ) hf _ _, hf', by simpa using hdeadline, hresult, hwaker⟩
    | ready r =>
      have hflight : g.waiter ∈ (n.complete t f' r).inFlight := by
        simp [Mem.complete, hwaker g.waiter rfl]
      have hdone : Prepares maxInstant hon t n (shadow a (.pollDeadline w k g)) _
          (.dropRegistration true (.loop w k) g) :=
        ((completes hcore hprompt hf hf' hdeadline hresult
          (TimerFuture.poll_eq_ready.mp hpoll)).wake hflight).woke rfl (Function.update_self _ _ _)
      refine hdone.answers rfl hcore hlatch (fun _ => ?_) (a := a)
      refine ⟨_, f'.complete r, future_effect_polled (ρ := ρ) hf _ _, Function.update_self _ _ _, ?_, ?_,
        ?_⟩
      · exact hdeadline.trans (TimerFuture.polled_deadline _ _).symm
      · cases r <;> rfl
      · intro b hb
        cases hb

/-- The poll of the deadline with the lock back. -/
lemma answers_deadlineReached {w : Condition σ ρ} {k : ℕ}
    (hclock : Clocked m n t (.deadlineReached w k : Pc σ ρ))
    (h : (code maxInstant (.deadlineReached w k)).Reports d p') :
    Answers maxInstant hon t n (shadow a (.deadlineReached w k)) d (m.effect t d) p' := by
  obtain ⟨f, f', hf, hf', hdeadline, hresult, -⟩ := hclock rfl
  cases h with
  | pollTimer _ _ r =>
    obtain ⟨f₀, hf₀, rfl⟩ := ha
    obtain rfl : f₀ = f := Option.some.inj (hf₀.symm.trans hf)
    cases hpoll : f₀.poll with
    | pending =>
      have hpending : Prepares maxInstant hon t n (shadow a (.deadlineReached w k)) _ _ :=
        Prepares.refl.poll rfl hf' (TimerFuture.poll_eq_pending.mpr hresult)
      exact hpending.answers rfl hcore hlatch
        (.polled hf hf' hdeadline hresult fun b hb => by cases hb) (a := a)
    | ready r =>
      have hdone : Prepares maxInstant hon t n (shadow a (.deadlineReached w k)) _ _ :=
        (completes hcore hprompt hf hf' hdeadline hresult (TimerFuture.poll_eq_ready.mp hpoll)).poll
          rfl (Function.update_self _ _ _) rfl
      cases r with
      | error e => exact hdone.answers rfl hcore hlatch (.of_timer_eq_false rfl) (a := a)
      | ok _ =>
        exact hdone.answers rfl hcore hlatch
          (.polled (m := m) (n := n.complete t f' _) hf (Function.update_self _ _ _) hdeadline rfl
            fun b hb => by cases hb) (a := a)

end Polls

end Differences

end Answers

/-! ## Runs -/

/-- The future is being dropped. -/
def Dropped : Pc σ ρ → Bool
  | .cancelRegistration _ _ | .cancelled _ => true
  | _ => false

omit [DecidableEq Tid] in
/-- A future is dropped by its owner alone. -/
lemma dropped_reports {maxInstant : ℕ} {p p' : Pc σ ρ} {d : Did σ ρ}
    (h : (code maxInstant p).Reports d p') (hp : Dropped p = false) : Dropped p' = false := by
  cases p with
  | idle | created | lockPending | waitPending | relockPending => cases h
  | cancelRegistration | cancelled => cases hp
  | lock e =>
    cases h with
    | tryLock => cases e <;> rfl
    | contended => rfl
  | write f n =>
    cases h with
    | write _ _ v => cases (f v).2 <;> cases n <;> rfl
  | notify n out =>
    cases n <;> cases h
    case one.takeOne g => cases g <;> rfl
    case all.takeAll gs => cases gs <;> rfl
  | signal b rest out =>
    cases h
    cases rest <;> rfl
  | checkFor timeout startedAt w =>
    cases h with
    | check _ _ v =>
      rcases w.waiting 0 v with _ | _ | _
      · rfl
      · rfl
      · dsimp only
        split
        · rfl
        · cases checkedAdd maxInstant startedAt timeout <;> rfl
  | recheck w n reached =>
    cases h with
    | check _ _ v => rcases w.waiting n v with _ | _ | _ <;> cases reached <;> rfl
  | timerAt deadline w early =>
    cases h with
    | timerAt _ _ r => cases r <;> cases early <;> rfl
  | dropGuard timed w n g =>
    cases h
    cases timed <;> rfl
  | relock w n status =>
    cases h with
    | tryLock =>
      rcases status with _ | e | status
      · rfl
      · rfl
      · cases status <;> rfl
    | contended => rfl
  | read | act | check | checkDeadline | earlyPoll | register | pollDeadline | pollNotified |
    deadlineReached =>
    cases h
    dsimp only
    split <;> rfl
  | _ =>
    cases h
    rfl

omit [DecidableEq Tid] in
/-- A poll drops no future. -/
lemma dropped_poll {p p' : Pc σ ρ} (h : jump p .poll = some p') : Dropped p' = false := by
  cases p <;> cases h
  case waitPending timed w n g => cases timed <;> rfl
  all_goals rfl

omit [DecidableEq Tid] in
/-- A poll leaves the Timer future alone. -/
lemma clocked_poll {m n : Mem σ Tid} {t : Tid} {p p' : Pc σ ρ} (h : jump p .poll = some p')
    (hclock : Clocked m n t p) : Clocked m n t p' := by
  cases p <;> cases h
  case created | lockPending => exact .of_timer_eq_false rfl
  case waitPending timed w n g => cases timed <;> exact hclock
  case relockPending => exact hclock

variable {maxInstant : ℕ} {s₀ : Setup σ} {tr : List (Program.Label σ ρ (Choice σ ρ) Tid)}
  {c : Threads.Conf (Mem σ Tid) Tid (Pc σ ρ)}

/-- **The thread answers every report of its task.**

**Proof sketch.** Where the programs are in step the thread makes the same report. The other places,
where the task tries the lock and polls its suspension, have one lemma each: the thread catches up by
its own primitives, with the Timer events that they need, or it stays where it is. -/
lemma answers_of_fires {hon : Prop} {m n : Mem σ Tid} {pc : Tid → Pc σ ρ} {t : Tid} {d : Did σ ρ}
    {p' : Pc σ ρ} (hf : (typed maxInstant Tid).Fires m pc t d p') (hcore : m.core = n.core)
    (hlatch : ∀ b, m.signalled b = true → n.signalled b = true) (hclock : Clocked m n t (pc t))
    (hkept : Dropped (pc t) = false)
    (hprompt : hon → ∀ f, m.future t = some f → f.result = some (.ok ()) → f.deadline ≤ m.clock)
    (a : ℕ) : Answers maxInstant hon t n (shadow a (pc t)) d (m.effect t d) p' := by
  have hreports : (code maxInstant (pc t)).Reports d p' := hf.reports
  have hallows := hf.allows
  cases hstep : InStep (pc t) with
  | true => exact answers_inStep hcore hlatch hclock hstep hreports hallows
  | false =>
    cases hp : pc t with
    | lock e =>
      rw [hp] at hreports
      exact answers_lock hcore hlatch hallows hreports
    | earlyPoll w =>
      rw [hp] at hreports hclock
      exact answers_earlyPoll hcore hlatch hallows hprompt hclock hreports
    | register timed w n =>
      rw [hp] at hreports hclock hstep
      cases timed with
      | false => cases hstep
      | true => exact answers_register hcore hlatch hallows hclock hreports
    | dropGuard timed w n g =>
      rw [hp] at hreports hclock hstep
      cases timed with
      | false => cases hstep
      | true => exact answers_dropGuard hcore hlatch hallows hclock hreports
    | pollDeadline w n g =>
      rw [hp] at hreports hclock
      exact answers_pollDeadline hcore hlatch hallows hprompt hclock hreports
    | pollNotified timed w n g =>
      rw [hp] at hreports hclock
      exact answers_pollNotified hcore hlatch hallows hclock hreports
    | relock w n status =>
      rw [hp] at hreports hclock
      exact answers_relock hcore hlatch hallows hclock hreports
    | deadlineReached w n =>
      rw [hp] at hreports hclock
      exact answers_deadlineReached hcore hlatch hallows hprompt hclock hreports
    | cancelRegistration | cancelled =>
      rw [hp] at hkept
      cases hkept
    | _ =>
      rw [hp] at hstep
      cases hstep

/-- With an honest Timer a future that has completed with success has passed its deadline. -/
lemma deadlines_of_run (h : (program maxInstant).Run s₀ tr c) (hh : Honest tr) (t : Tid) :
    Deadlines (fun _ => none : Choice σ ρ → Option Unit) tr c.mem t := by
  revert hh t
  refine (typed maxInstant Tid).rule (I := fun tr m _ => Honest tr → ∀ t,
    Deadlines (fun _ => none : Choice σ ρ → Option Unit) tr m t) ?_ ?_ ?_ ?_ h
  · intro _ t
    refine ⟨fun f _ hf => ?_, fun f hf => ?_, fun dl hdl => ?_⟩
    · cases hf
    · cases hf
    · cases hdl
  · intro tr m pc t d p hr hi hf hh u
    have hold := hi (hh.of_suffix (List.suffix_cons _ _)) u
    by_cases hut : u = t
    · subst hut
      exact hold.did_self hf.allows
    · exact hold.did_other hut
  · intro tr m pc t x p hr hi hj hh u
    have hold := hi (hh.of_suffix (List.suffix_cons _ _)) u
    have hsame : since (fun _ => none : Choice σ ρ → Option Unit) (.chose t x :: tr) u =
        since (fun _ => none : Choice σ ρ → Option Unit) tr u := by
      simp [since]
    refine ⟨?_, hold.result, ?_⟩
    · rw [hsame]
      exact hold.deadline
    · rw [hsame]
      exact hold.reached
  · intro tr m pc e m' b hr hi he hh u
    refine (hi (hh.of_suffix (List.suffix_cons _ _)) u).timer he ?_
    rintro t dl now rfl
    exact hh t dl now List.mem_cons_self

/-- **A run of the blocking monitor that stands for a run of the Tokio monitor.** -/
structure Shadowed (tr : List (Program.Label σ ρ (Choice σ ρ) Tid))
    (c : Threads.Conf (Mem σ Tid) Tid (Pc σ ρ))
    (tr' : List (Program.Label σ ρ (Blocking.Choice σ ρ) Tid))
    (c' : Threads.Conf (Mem σ Tid) Tid (Blocking.Pc σ ρ)) : Prop where
  core : c.mem.core = c'.mem.core
  /-- Who is notified is awake. -/
  latch : ∀ b, c.mem.signalled b = true → c'.mem.signalled b = true
  pc : ∀ t, ∃ a, c'.pc t = shadow a (c.pc t)
  clocked : ∀ t, Clocked c.mem c'.mem t (c.pc t)
  kept : ∀ t, Dropped (c.pc t) = false
  honest : Honest tr → Honest tr'

section Update

variable {tr' : List (Program.Label σ ρ (Blocking.Choice σ ρ) Tid)}
  {c' : Threads.Conf (Mem σ Tid) Tid (Blocking.Pc σ ρ)}

/-- The thread of a task that moves moves to its shadow. -/
lemma Shadowed.pc_update (h : Shadowed tr c tr' c') {t : Tid} {p : Pc σ ρ} {q : Blocking.Pc σ ρ} {a : ℕ}
    (hq : q = shadow a p) (u : Tid) :
    ∃ a, Function.update c'.pc t q u = shadow a (Function.update c.pc t p u) :=
  Threads.related_update (F := fun p q => ∃ a, q = shadow a p) h.pc ⟨a, hq⟩ u

/-- A task that moves is not dropped. -/
lemma Shadowed.kept_update (h : Shadowed tr c tr' c') {t : Tid} {p : Pc σ ρ} (hp : Dropped p = false) :
    ∀ u, Dropped (Function.update c.pc t p u) = false :=
  (Function.forall_update_iff c.pc fun _ q => Dropped q = false).mpr ⟨hp, fun u _ => h.kept u⟩

end Update

/-- A choice of the owner of a future: a call is made by the thread as well, a poll is not. -/
lemma Shadowed.chose {m n : Mem σ Tid} {pc : Tid → Pc σ ρ} {pc' : Tid → Blocking.Pc σ ρ} {t : Tid}
    {x : Choice σ ρ} {p : Pc σ ρ} {tr' : List (Program.Label σ ρ (Blocking.Choice σ ρ) Tid)}
    (h : Shadowed tr ⟨m, pc⟩ tr' ⟨n, pc'⟩) (hx : x ≠ .cancel) (hj : jump (pc t) x = some p) :
    ∃ ls c', (Blocking.program maxInstant).threads.Run ⟨n, pc'⟩ ls c' ∧
      ls.filterMap Blocking.shown = [.chose t x].filterMap shown ∧
      Shadowed (.chose t x :: tr) ⟨m, Function.update pc t p⟩ (ls ++ tr') c' := by
  obtain ⟨a, ha⟩ := h.pc t
  have hhonest : Honest (.chose t x :: tr) → Honest tr' :=
    fun hh => h.honest (hh.of_suffix (List.suffix_cons _ _))
  have hclocked : Clocked m n t p → ∀ u, Clocked m n u (Function.update pc t p u) := fun hp =>
    (Function.forall_update_iff pc fun u q => Clocked m n u q).mpr ⟨hp, fun u _ => h.clocked u⟩
  cases x with
  | cancel => exact absurd rfl hx
  | call op =>
    have hidle : pc t = .idle := by
      cases hp : pc t with
      | idle => rfl
      | _ =>
        rw [hp] at hj
        cases hj
    rw [hidle] at hj
    cases hj
    have hjump : Blocking.jump (pc' t) (.call op.blocking) = some op.blocking.begin := by
      rw [show pc' t = shadow a (pc t) from ha, hidle]
      rfl
    have hstep : (Blocking.program maxInstant).threads.step ⟨n, pc'⟩ (.choose t (.call op.blocking)) =
        some (_, _) := Threads.step_choose _ hjump
    refine ⟨_, _, .single _ hstep, rfl, h.core, h.latch, h.pc_update (shadow_begin 0 op).symm,
      hclocked (.of_timer_eq_false (by simp [Res.idle])), h.kept_update (by cases op <;> rfl), ?_⟩
    intro hh u dl now hmem
    exact hhonest hh u dl now (by simpa using hmem)
  | poll =>
    have hpc := h.pc_update (t := t) (ha.trans (shadow_poll hj a).symm)
    rw [Function.update_eq_self] at hpc
    exact ⟨[], _, .nil, rfl, h.core, h.latch, hpc, hclocked (clocked_poll hj (h.clocked t)),
      h.kept_update (dropped_poll hj), hhonest⟩

/-- What the Timer does: the thread sees the time pass, and no completion yet. -/
lemma Shadowed.timer (hr : (program maxInstant).Run s₀ tr c) {e : TimerEvent Tid} {m' : Mem σ Tid}
    {b : TimerDid Tid} {tr' : List (Program.Label σ ρ (Blocking.Choice σ ρ) Tid)}
    {c' : Threads.Conf (Mem σ Tid) Tid (Blocking.Pc σ ρ)} (h : Shadowed tr c tr' c')
    (he : c.mem.timer e = some (m', b)) :
    ∃ ls c'', (Blocking.program maxInstant).threads.Run c' ls c'' ∧
      ls.filterMap Blocking.shown = [.ambient b].filterMap shown ∧
      Shadowed (.ambient b :: tr) ⟨m', c.pc⟩ (ls ++ tr') c'' := by
  have hhonest : Honest (.ambient b :: tr) → Honest tr' :=
    fun hh => h.honest (hh.of_suffix (List.suffix_cons _ _))
  have hnil := handed_nil hr
  rcases Mem.timer_eq_some he with ⟨d, rfl, rfl⟩ | ⟨t, f, r, hf, -, rfl, rfl⟩ | ⟨a, ha, -, -⟩ |
    ⟨a, ha, -, -⟩
  · refine ⟨_, _, .single (.ambient (.tick d)) rfl, rfl, ?_, h.latch, h.pc, h.clocked, h.kept, ?_⟩
    · exact congrArg (fun m : Mem σ Tid => { m with clock := m.clock + d }) h.core
    · intro hh u dl now hmem
      exact hhonest hh u dl now (by simpa using hmem)
  · -- the thread does not learn of it before the task does
    refine ⟨[], c', .nil, rfl, h.core, h.latch, h.pc, fun u => ?_, h.kept, hhonest⟩
    intro htimer
    obtain ⟨f₁, f', hf₁, hf', hdeadline, hresult, hwakes⟩ := h.clocked u htimer
    by_cases hut : u = t
    · subst hut
      obtain rfl : f₁ = f := Option.some.inj (hf₁.symm.trans hf)
      exact ⟨f₁.complete r, f', Function.update_self _ _ _, hf', hdeadline, hresult, hwakes⟩
    · exact ⟨f₁, f', (Function.update_of_ne hut _ _).trans hf₁, hf', hdeadline, hresult, hwakes⟩
  · have hhanded := ((typed maxInstant Tid).history hr).inFlight_handed ha
    rw [hnil] at hhanded
    cases hhanded
  · rw [hnil] at ha
    cases ha

/-- A report of a task. -/
lemma Shadowed.did {m n : Mem σ Tid} {pc : Tid → Pc σ ρ} {pc' : Tid → Blocking.Pc σ ρ} {t : Tid}
    {d : Did σ ρ} {p : Pc σ ρ} {tr' : List (Program.Label σ ρ (Blocking.Choice σ ρ) Tid)}
    (hr : (program maxInstant).Run s₀ tr ⟨m, pc⟩) (h : Shadowed tr ⟨m, pc⟩ tr' ⟨n, pc'⟩)
    (hf : (typed maxInstant Tid).Fires m pc t d p) :
    ∃ ls c', (Blocking.program maxInstant).threads.Run ⟨n, pc'⟩ ls c' ∧
      ls.filterMap Blocking.shown = [.did t d].filterMap shown ∧
      Shadowed (.did t d :: tr) ⟨m.effect t d, Function.update pc t p⟩ (ls ++ tr') c' := by
  obtain ⟨a, ha⟩ := h.pc t
  have hprompt : Honest tr → ∀ f, m.future t = some f → f.result = some (.ok ()) →
      f.deadline ≤ m.clock := fun hh => (deadlines_of_run hr hh t).result
  obtain ⟨ls, n', a', hacc, hshown, hcore, hlatch, hclock, hother, hhon⟩ :=
    answers_of_fires hf h.core h.latch (h.clocked t) (h.kept t) hprompt a
  have hclocked : ∀ u, Clocked (m.effect t d) n' u (Function.update pc t p u) := by
    refine (Function.forall_update_iff pc fun u q => Clocked (m.effect t d) n' u q).mpr
      ⟨hclock, fun u hut => ?_⟩
    exact (h.clocked u).of_eq (Mem.effect_future_ne hut) (hother u hut) id rfl rfl
  refine ⟨ls, _, hacc.run ha, hshown, hcore, hlatch, h.pc_update rfl, hclocked,
    h.kept_update (dropped_reports hf.reports (h.kept t)), ?_⟩
  intro hh u dl now hmem
  have hpast : Honest tr := hh.of_suffix (List.suffix_cons _ _)
  rcases List.mem_append.mp hmem with hmem | hmem
  · exact hhon hpast u dl now hmem
  · exact h.honest hpast u dl now hmem

/-- **The Tokio monitor refines the blocking monitor.** Every run of a Tokio monitor in which no future
is dropped is shown by a blocking monitor: the same calls, acquisitions and releases of the lock,
evaluations of predicates, closures, registrations, selections, signals, results and panics, in the same
order and on the same values, with the same time passing in between; and both end with the same
protected value, lock owner, registry and clock. If the Timer of the Tokio monitor is honest, so is the
one of the blocking monitor.

**Proof sketch.** A run is followed step by step (`Lts.Run.follow`). Every task has its thread at the
shadow of its program counter (`Shadowed`), the two memories agree but for the Timer futures and the
latches, and the thread answers every report of its task with the same one or with none
(`answers_of_fires`). -/
theorem refines_blocking (h : (program maxInstant).Run s₀ tr c) (hkeep : ∀ t, .chose t .cancel ∉ tr) :
    ∃ tr' c', (Blocking.program maxInstant).Run s₀ tr' c' ∧
      tr'.filterMap Blocking.shown = tr.filterMap shown ∧ c'.mem.value = c.mem.value ∧
      c'.mem.owner = c.mem.owner ∧ c'.mem.registry = c.mem.registry ∧ c'.mem.clock = c.mem.clock ∧
      (Honest tr → Honest tr') := by
  have hstart : Shadowed ([] : List (Program.Label σ ρ (Choice σ ρ) Tid))
      ((program maxInstant).start s₀) [] ((Blocking.program maxInstant).start s₀) :=
    ⟨rfl, fun _ hb => hb, fun _ => ⟨0, rfl⟩, fun _ => .of_timer_eq_false rfl, fun _ => rfl, fun _ => by
      intro t dl now hmem
      cases hmem⟩
  obtain ⟨tr', c', hr', hshown, hs⟩ := Lts.Run.follow shown Blocking.shown
    (fun l => ∀ t, l ≠ .chose t .cancel) (R := Shadowed) hstart
    (fun {tr s e s' l tr' t} hr hr' hR hok hstep => by
      rcases (program maxInstant).threads.step_eq_some hstep with ⟨t, o, d, p, -, hf, rfl, rfl⟩ |
        ⟨t, x, p, -, hj, rfl, rfl⟩ | ⟨a, m', b, -, ha, rfl, rfl⟩
      · exact hR.did hr ((typed maxInstant Tid).fires ((typed maxInstant Tid).owned hr) hf)
      · exact hR.chose (fun hx => hok t (by rw [hx])) hj
      · exact hR.timer hr ha)
    h (fun l hl t heq => hkeep t (heq ▸ hl))
  have hcore : ∀ {α : Type} (g : Mem σ Tid → α), g c'.mem.core = g c.mem.core := fun g => by rw [hs.core]
  exact ⟨tr', c', hr', hshown, hcore Mem.value, hcore Mem.owner, hcore Mem.registry, hcore Mem.clock,
    hs.honest⟩

/-- A wait with a budget is suspended, an update increments the value and notifies it, and the wait runs
its action and returns. -/
def notifiedThenActed : List (Threads.Event Bool (Option TimeError) (Choice ℕ Unit)
    (TimerEvent Bool)) :=
  [.choose false (.call (.waitWhileForAsync 5
      ⟨fun _ v => some (v == 0), fun v => (v + 10, some ())⟩)),
    .choose false .poll, .run false none, .run false none, .run false none, .run false none,
    .run false none, .run false none, .run false none, .run false none,
    .choose true (.call (.withWriteNotifyOneAsync fun v => (v + 1, some ()))), .choose true .poll,
    .run true none, .run true none, .run true none, .run true none, .run true none, .run true none,
    .choose false .poll, .run false none, .run false none, .run false none, .run false none,
    .run false none, .run false none, .run false none, .run false none]

/-- A blocking monitor shows the run of `notifiedThenActed`, and ends with the same value. -/
theorem refines_blocking_notified :
    ∃ tr, ∃ c : Threads.Conf (Mem ℕ Bool) Bool (Pc ℕ Unit),
      (program 100).Run ⟨0, 0, false⟩ tr c ∧ (∀ t, .chose t .cancel ∉ tr) ∧
      lastReturn tr = some (false, .timed (.ok (.ready ())), 11, 0) ∧
      ∃ tr', ∃ c' : Threads.Conf (Mem ℕ Bool) Bool (Blocking.Pc ℕ Unit),
        (Blocking.program 100).Run ⟨0, 0, false⟩ tr' c' ∧
        tr'.filterMap Blocking.shown = tr.filterMap shown ∧ c'.mem.value = 11 := by
  obtain ⟨tr, c, hr, hp, hes⟩ := (program 100).threads.exists_run_of_play
    ((program 100).start ⟨0, 0, false⟩) notifiedThenActed
    (p := fun s => lastReturn s.2 = some (false, .timed (.ok (.ready ())), 11, 0) ∧
      s.1.mem.value = 11) (by decide)
  simp only [decide_eq_true_eq] at hp
  obtain ⟨hreturn, hvalue⟩ := hp
  have hkeep : ∀ t, .chose t .cancel ∉ tr := by
    intro t ht
    have := hes _ _ ht
    simp [notifiedThenActed] at this
  obtain ⟨tr', c', hr', hshown, hsame, -⟩ := refines_blocking hr hkeep
  exact ⟨tr, c, hr, hkeep, hreturn, tr', c', hr', hshown, hsame.trans hvalue⟩

end Tokio

end QubitLock
