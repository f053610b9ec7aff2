import QubitLock.Monitor.Calls
import QubitLock.Monitor.History
import QubitLock.Monitor.Progress
import QubitLock.Tokio.Program

set_option relaxedAutoImplicit false
set_option autoImplicit false

/-!
# Progress of the Tokio operations

A poll of a future of a Tokio monitor never blocks its worker thread, and it ends: a wait that finds
its notification already there takes another round within the same poll, but each such round is paid by
a notification that selected the future. Between polls nobody holds the state lock.

## Main definitions

* `Tokio.stepsLeft` — the steps that a poll has left at each program counter.
* `Tokio.wakes` — the signals to the registration of a task since its latest choice.
* `Tokio.inPoll`, `Tokio.picks` — what a task did since its latest choice, and the waiters it selected.

## Main results

* `Tokio.polls_progress` — polls do not block, end, and leave the state lock free.
-/

namespace QubitLock.Tokio

variable {σ ρ Tid : Type}

/-! ## Polls do not block -/

/-- Nothing is executed of a future between polls alone. -/
lemma suspended_of_suspend {maxInstant : ℕ} {p : Pc σ ρ} (h : code maxInstant p = .suspend) :
    p = .idle ∨ Suspended p = true := by
  cases p with
  | idle => exact .inl rfl
  | created | lockPending | waitPending | relockPending => exact .inr rfl
  | notify n out => cases n <;> cases h
  | _ => cases h

/-- The Tokio program never waits for the state lock in a primitive. -/
lemma code_ne_lock {maxInstant : ℕ} {p k : Pc σ ρ} : code maxInstant p ≠ .lock k := by
  intro h
  cases p with
  | notify n out => cases n <;> cases h
  | _ => cases h

/-- The Tokio program never parks. -/
lemma code_ne_park {maxInstant a : ℕ} {p k : Pc σ ρ} : code maxInstant p ≠ .park a k := by
  intro h
  cases p with
  | notify n out => cases n <;> cases h
  | _ => cases h

/-! ## The steps of a poll -/

/-- The steps that are left with the status of a suspension, from the reacquisition of the lock on. A
notification that came first is followed by one more suspension. -/
def statusLeft : Option (Except TimeError WaitTimeoutStatus) → ℕ
  | none => 5
  | some (.ok .woken) => 11
  | some (.ok .timedOut) | some (.error _) => 4

/-- The steps that a poll has left at most, if the latch of its registration is `set` and nobody sets
it meanwhile. -/
def stepsLeft (set : Bool) : Pc σ ρ → ℕ
  | .idle | .created _ | .lockPending _ | .waitPending _ _ _ _ | .relockPending _ _ _ => 0
  | .finish _ | .done _ | .cancelled _ | .unwindGuard => 1
  | .read _ | .act _ _ | .notify _ _ | .cancelRegistration _ _ => 2
  | .writeDone _ _ => 3
  | .write _ _ | .check _ _ => 4
  | .signal _ rest _ => rest.length + 2
  | .earlyPoll _ => 9
  | .timerAt _ _ early => if early then 10 else 9
  | .checkFor _ _ _ | .deadlineReached _ _ => 10
  | .sample _ _ | .checkDeadline _ _ => 11
  | .lock _ => 12
  | .register timed _ _ => if timed then 8 else 3
  | .dropGuard true _ _ _ => if set then 15 else 7
  | .dropGuard false _ _ _ => if set then 8 else 2
  | .pollDeadline _ _ _ => if set then 14 else 6
  | .pollNotified true _ _ _ => if set then 13 else 1
  | .pollNotified false _ _ _ => if set then 7 else 1
  | .dropRegistration _ _ _ status => statusLeft status + 1
  | .relock _ _ status => statusLeft status
  | .recheck _ _ reached => if reached then 3 else 9

/-- The latch of the registration at a program counter is set. -/
def latched (m : Mem σ Tid) (p : Pc σ ρ) : Bool :=
  (typ p).reg.any fun g => m.signalled g.waiter

lemma stepsLeft_entry (set : Bool) (e : Entry σ ρ) : stepsLeft set e.pc ≤ 11 := by
  cases e <;> simp [Entry.pc, stepsLeft]

@[simp] lemma stepsLeft_signalAll (set : Bool) (as : List ℕ) (out : Outcome ρ) :
    stepsLeft set (signalAll as out : Pc σ ρ) = as.length + 1 := by
  cases as <;> simp [signalAll, stepsLeft]

lemma stepsLeft_relocked (set : Bool) (w : Condition σ ρ) (n : ℕ)
    (status : Option (Except TimeError WaitTimeoutStatus)) :
    stepsLeft set (relocked w n status) + 1 ≤ statusLeft status := by
  rcases status with _ | e | status
  · exact le_rfl
  · simp [relocked, stepsLeft, statusLeft]
  · cases status <;> exact le_rfl

lemma statusLeft_le (status : Option (Except TimeError WaitTimeoutStatus)) :
    statusLeft status ≤ 11 := by
  rcases status with _ | e | status
  · simp [statusLeft]
  · simp [statusLeft]
  · cases status <;> simp [statusLeft]

/-- A signal adds a round. -/
lemma stepsLeft_true_le (p : Pc σ ρ) : stepsLeft true p ≤ stepsLeft false p + 12 := by
  cases p with
  | dropGuard timed | pollNotified timed => cases timed <;> simp [stepsLeft]
  | pollDeadline => simp [stepsLeft]
  | _ => exact Nat.le_add_right _ _

/-- A signal takes no step away. -/
lemma stepsLeft_le_true (set : Bool) (p : Pc σ ρ) : stepsLeft set p ≤ stepsLeft true p := by
  cases set with
  | true => exact le_rfl
  | false =>
    cases p with
    | dropGuard timed | pollNotified timed => cases timed <;> simp [stepsLeft]
    | pollDeadline => simp [stepsLeft]
    | _ => exact le_rfl

/-- A choice of the owner of a future starts at most 14 steps. -/
lemma stepsLeft_jump {p p' : Pc σ ρ} {x : Choice σ ρ} (h : jump p x = some p') (set : Bool) :
    stepsLeft set p' ≤ 14 := by
  cases p <;> cases x <;> cases h
  case idle.call op => cases op <;> simp [Op.begin, stepsLeft]
  case waitPending.poll timed w n g => cases timed <;> cases set <;> simp [pollWait, stepsLeft]
  case relockPending.poll w n status => exact (statusLeft_le status).trans (by omega)
  all_goals simp [stepsLeft]

/-- **Every step of a poll is paid** from the steps that are left, if it does not set the latch of its
own registration.

**Proof sketch.** One case for each program counter: fewer steps are left at the next one. A selection,
which leaves a signal to give for each waiter, and a signal to the own registration, which lets a wait
go on instead of being suspended, are excluded here and accounted for separately. -/
lemma stepsLeft_reports {maxInstant : ℕ} {p p' : Pc σ ρ} {d : Did σ ρ} {set set' : Bool}
    (h : (code maxInstant p).Reports d p') (htake : d.isTake = false) (hset : set' = true → set = true)
    (hnew : ∀ g, d = .registered (some g) → set' = false)
    (hnotified : ∀ a, d = .notified a true → set = true) :
    stepsLeft set' p' + 1 ≤ stepsLeft set p := by
  cases p with
  | idle | created | lockPending | waitPending | relockPending => cases h
  | lock e =>
    cases h with
    | tryLock => exact Nat.add_le_add_right (stepsLeft_entry set' e) 1
    | contended => simp [stepsLeft]
  | read f =>
    cases h with
    | read _ _ v => cases f v <;> simp [stepsLeft]
  | write f n =>
    cases h with
    | write _ _ v => cases (f v).2 <;> cases n <;> simp [stepsLeft]
  | notify n out => cases n <;> cases h <;> cases htake
  | signal a rest out =>
    cases h
    rw [stepsLeft_signalAll]
    exact le_rfl
  | check w n =>
    cases h with
    | check _ _ v => rcases w.waiting n v with _ | _ | _ <;> simp [stepsLeft]
  | checkFor timeout startedAt w =>
    cases h with
    | check _ _ v =>
      rcases w.waiting 0 v with _ | _ | _
      · simp [stepsLeft]
      · simp [stepsLeft]
      · dsimp only
        split
        · simp [stepsLeft]
        · split <;> simp [stepsLeft]
  | checkDeadline deadline w =>
    cases h with
    | check _ _ v => rcases w.waiting 0 v with _ | _ | _ <;> simp [stepsLeft]
  | timerAt deadline w early =>
    cases h with
    | timerAt _ _ r => cases r <;> cases early <;> simp [stepsLeft]
  | earlyPoll w | deadlineReached w n =>
    cases h with
    | pollTimer _ _ r => rcases r with _ | _ | _ <;> simp [stepsLeft]
  | register timed w n =>
    cases h with
    | register _ g =>
      cases g with
      | none => cases timed <;> simp [stepsLeft]
      | some g =>
        obtain rfl : set' = false := hnew g rfl
        cases timed <;> simp [stepsLeft]
  | dropGuard timed w n g =>
    cases h
    cases timed <;> cases set <;> cases set' <;> simp_all [stepsLeft, pollWait]
  | pollDeadline w n g =>
    cases h with
    | pollTimer _ _ r =>
      rcases r with _ | _ | _ <;> cases set <;> cases set' <;>
        simp_all [stepsLeft, statusLeft, Except.map]
  | pollNotified timed w n g =>
    cases h with
    | pollNotified _ _ b =>
      cases b with
      | false => cases timed <;> cases set <;> simp [stepsLeft]
      | true =>
        obtain rfl : set = true := hnotified _ rfl
        cases timed <;> simp [stepsLeft, statusLeft]
  | relock w n status =>
    cases h with
    | tryLock => exact stepsLeft_relocked set' w n status
    | contended =>
      have hleft := stepsLeft_relocked set' w n status
      simp only [stepsLeft]
      omega
  | recheck w n reached =>
    cases h with
    | check _ _ v => rcases w.waiting n v with _ | _ | _ <;> cases reached <;> simp [stepsLeft]
  | act w timed =>
    cases h with
    | write _ _ v => cases (w.f v).2 <;> simp [stepsLeft]
  | _ =>
    cases h
    simp [stepsLeft]

/-- A selection adds the signals that it has to send. -/
lemma stepsLeft_take {maxInstant : ℕ} {p p' : Pc σ ρ} {d : Did σ ρ} {set set' : Bool}
    (h : (code maxInstant p).Reports d p') (htake : d.isTake = true) :
    stepsLeft set' p' + 1 ≤ stepsLeft set p + d.taken.length := by
  cases p with
  | notify n out =>
    cases n <;> cases h <;> rw [stepsLeft_signalAll]
    case one.takeOne g => cases g <;> simp [stepsLeft, Did.taken]
    case all.takeAll gs =>
      simp only [stepsLeft, Did.taken, List.length_map]
      omega
  | _ => cases h <;> cases htake

/-! ## Runs -/

variable [DecidableEq Tid] {maxInstant : ℕ} {s₀ : Setup σ}
  {tr : List (Program.Label σ ρ (Choice σ ρ) Tid)} {c : Threads.Conf (Mem σ Tid) Tid (Pc σ ρ)}

/-- What a task did since its latest choice, newest first: in the current poll of its future. -/
def inPoll (tr : List (Program.Label σ ρ (Choice σ ρ) Tid)) (t : Tid) : List (Did σ ρ) :=
  since some tr t

/-- The number of waiters that a call selected. -/
def picks (ds : List (Did σ ρ)) : ℕ :=
  (ds.flatMap Did.taken).length

lemma picks_cons (d : Did σ ρ) (ds : List (Did σ ρ)) :
    picks (d :: ds) = d.taken.length + picks ds := by
  simp [picks]

/-- The waiter that a report signals. -/
def signals : Did σ ρ → Option ℕ
  | .signalled a => some a
  | _ => none

/-- The signals to the registration of a task since its latest choice. -/
def wakes : List (Program.Label σ ρ (Choice σ ρ) Tid) → Tid → ℕ
  | [], _ => 0
  | .did _ d :: tr, t =>
    wakes tr t + (liveReg tr t).toList.countP fun g => signals d = some g.waiter
  | .chose u _ :: tr, t => if u = t then 0 else wakes tr t
  | .ambient _ :: tr, t => wakes tr t

/-- A Tokio monitor gives the Timer no waker of a waiter. -/
lemma handed_nil (h : (program maxInstant).Run s₀ tr c) : c.mem.handed = [] := by
  refine (typed maxInstant Tid).rule (I := fun _ m _ => m.handed = []) rfl ?_ ?_ ?_ h
  · intro tr m pc t d p hr hi hf
    have hreports : (code maxInstant (pc t)).Reports d p := hf.reports
    cases d with
    | polled w r =>
      have hw : w = .task := by
        cases hp : pc t <;> rw [hp] at hreports
        case notify n out => cases n <;> cases hreports
        all_goals cases hreports <;> rfl
      subst hw
      exact hi
    | timerMade deadline r => cases r <;> exact hi
    | _ => exact hi
  · intro tr m pc t x p hr hi hj
    exact hi
  · intro tr m pc e m' b hr hi he
    rw [(Mem.timer_frame he).handed, hi]

/-- The Timer of a Tokio monitor sets no latch. -/
lemma timer_signalled_eq (h : (program maxInstant).Run s₀ tr c) {e : TimerEvent Tid}
    {m' : Mem σ Tid} {b : TimerDid Tid} (he : c.mem.timer e = some (m', b)) :
    m'.signalled = c.mem.signalled := by
  have hnil := handed_nil h
  have hflight : ∀ a, a ∉ c.mem.inFlight := by
    intro a ha
    have hmem := ((typed maxInstant Tid).history h).inFlight_handed ha
    rw [hnil] at hmem
    cases hmem
  rcases Mem.timer_eq_some he with ⟨d, rfl, -⟩ | ⟨t, f, r, -, -, rfl, -⟩ | ⟨a, ha, -, -⟩ |
    ⟨a, ha, -, -⟩
  · rfl
  · rfl
  · exact absurd ha (hflight a)
  · rw [hnil] at ha
    cases ha

/-- The latch of a registration is set by a signal to it alone. -/
lemma latched_effect {m : Mem σ Tid} {u : Tid} {d : Did σ ρ} {p : Pc σ ρ} {g : Registration}
    (hreg : (typ p).reg = some g) (hset : latched (m.effect u d) p = true) :
    m.signalled g.waiter = true ∨ signals d = some g.waiter := by
  unfold latched at hset
  rw [hreg] at hset
  have hsignalled : (m.effect u d).signalled g.waiter = true := hset
  rw [m.effect_signalled] at hsignalled
  cases d with
  | signalled a =>
    by_cases ha : g.waiter = a
    · rw [ha]
      exact .inr rfl
    · exact .inl ((Function.update_of_ne ha true m.signalled).symm.trans hsignalled)
  | _ => exact .inl hsignalled

omit [DecidableEq Tid] in
/-- A set latch is that of a registration. -/
lemma exists_reg_of_latched {m : Mem σ Tid} {p : Pc σ ρ} (h : latched m p = true) :
    ∃ g, (typ p).reg = some g := by
  unfold latched at h
  cases hreg : (typ p).reg with
  | none =>
    rw [hreg] at h
    cases h
  | some g => exact ⟨g, rfl⟩

/-- A task that signals waiters has no registration. -/
lemma reg_of_signals {p p' : Pc σ ρ} {d : Did σ ρ} {a : ℕ} (h : (code maxInstant p).Reports d p')
    (ha : signals d = some a) : (typ p').reg = none := by
  cases p with
  | signal b rest out =>
    cases h
    rw [typ_signalAll]
    rfl
  | notify n out => cases n <;> cases h <;> cases ha
  | _ => cases h <;> cases ha

/-- A task does not set the latch of its own registration, and a new registration has its latch
unset.

**Proof sketch.** A task that signals has no registration, so the latch of its own registration was
set before the step. A new registration has a waiter object above all those with a latch that is set. -/
lemma latched_self {m : Mem σ Tid} {pc : Tid → Pc σ ρ} {t : Tid} {d : Did σ ρ} {p : Pc σ ρ}
    (hf : (typed maxInstant Tid).Fires m pc t d p) (hset : latched (m.effect t d) p = true) :
    latched m (pc t) = true ∧ ∀ g, d ≠ .registered (some g) := by
  obtain ⟨g, hreg⟩ := exists_reg_of_latched hset
  have hsignalled : m.signalled g.waiter = true := by
    refine (latched_effect hreg hset).resolve_right fun ha => ?_
    rw [reg_of_signals hf.reports ha] at hreg
    cases hreg
  have hlive : some g = d.live (typ (pc t)).reg := hreg.symm.trans hf.step.live
  have hnew : ∀ g', d ≠ .registered (some g') := by
    rintro g' rfl
    cases hlive
    have hlt := hf.owned.waiter.signalled_lt hsignalled
    exact lt_irrefl _ (hf.allows.2 ▸ hlt)
  refine ⟨?_, hnew⟩
  have hold : (typ (pc t)).reg = some g := by
    cases d with
    | registered r =>
      cases r with
      | none => exact hlive.symm
      | some g' => exact absurd rfl (hnew g')
    | unregistered => cases hlive
    | _ => exact hlive.symm
  rw [latched, hold]
  exact hsignalled

/-- A task that finds itself notified has its latch set. -/
lemma latched_of_notified {m : Mem σ Tid} {pc : Tid → Pc σ ρ} {t : Tid} {a : ℕ} {p : Pc σ ρ}
    (hf : (typed maxInstant Tid).Fires m pc t (.notified a true) p) : latched m (pc t) = true := by
  obtain ⟨-, g, hreg, rfl⟩ := hf.step.1
  have hreg : (typ (pc t)).reg = some g := hreg
  rw [latched, hreg]
  exact hf.allows.symm

/-- Every step of a poll is paid in a run. -/
lemma stepsLeft_fires {m : Mem σ Tid} {pc : Tid → Pc σ ρ} {t : Tid} {d : Did σ ρ} {p : Pc σ ρ}
    (hf : (typed maxInstant Tid).Fires m pc t d p) :
    stepsLeft (latched (m.effect t d) p) p + 1 ≤
      stepsLeft (latched m (pc t)) (pc t) + d.taken.length := by
  cases htake : d.isTake with
  | true => exact stepsLeft_take hf.reports htake
  | false =>
    refine (stepsLeft_reports hf.reports htake (fun hset => (latched_self hf hset).1) ?_ ?_).trans
      (Nat.le_add_right _ _)
    · intro g hg
      exact Bool.eq_false_iff.mpr fun hset => (latched_self hf hset).2 g hg
    · rintro a rfl
      exact latched_of_notified hf

/-- A step of another task adds a round for a signal to the registration of a poll.

**Proof sketch.** A step of another task changes the bound only if it sets the latch of the registration
of the poll. Then it is one of the counted signals, and one more round is paid by it. -/
lemma stepsLeft_other (h : (program maxInstant).Run s₀ tr c) {t u : Tid} {d : Did σ ρ} :
    stepsLeft (latched (c.mem.effect u d) (c.pc t)) (c.pc t) + 12 * wakes tr t ≤
      stepsLeft (latched c.mem (c.pc t)) (c.pc t) + 12 * wakes (.did u d :: tr) t := by
  have hlive : liveReg tr t = (typ (c.pc t)).reg := ((typed maxInstant Tid).history h).live t
  simp only [wakes]
  cases hset : latched (c.mem.effect u d) (c.pc t) with
  | false =>
    have hle : stepsLeft false (c.pc t) ≤ stepsLeft (latched c.mem (c.pc t)) (c.pc t) := by
      cases latched c.mem (c.pc t)
      · exact le_rfl
      · exact stepsLeft_le_true false _
    omega
  | true =>
    cases hold : latched c.mem (c.pc t) with
    | true => omega
    | false =>
      obtain ⟨g, hreg⟩ := exists_reg_of_latched hset
      have hsignals : signals d = some g.waiter := by
        refine (latched_effect hreg hset).resolve_left fun hsignalled => ?_
        rw [latched, hreg] at hold
        exact Bool.false_ne_true (hold.symm.trans hsignalled)
      have hle := stepsLeft_true_le (c.pc t)
      rw [hlive, hreg]
      simp only [Option.toList_some, hsignals, List.countP_singleton, decide_true, if_true]
      omega

/-- **The potential of a poll.** The steps that a poll has made and has left are at most 14, and 12 more
for each signal to its registration and one for each waiter that it selected.

**Proof sketch.** Induction on the run. A step of the task itself is paid from its steps left, or from
the waiter that it selects; a step of another task changes them only by a signal to the registration of
the task, which brings 12 more; a poll begins with at most 14. -/
lemma length_inPoll_add (h : (program maxInstant).Run s₀ tr c) (t : Tid) :
    (inPoll tr t).length + stepsLeft (latched c.mem (c.pc t)) (c.pc t) ≤
      14 + 12 * wakes tr t + picks (inPoll tr t) := by
  revert t
  refine (typed maxInstant Tid).rule (I := fun tr m pc => ∀ t,
    (inPoll tr t).length + stepsLeft (latched m (pc t)) (pc t) ≤
      14 + 12 * wakes tr t + picks (inPoll tr t)) ?_ ?_ ?_ ?_ h
  · intro t
    exact Nat.zero_le _
  · intro tr m pc u d p hr hi hf t
    have hold := hi t
    by_cases hut : u = t
    · subst hut
      have hpaid := stepsLeft_fires hf
      have hwakes : wakes tr u ≤ wakes (.did u d :: tr) u := Nat.le_add_right _ _
      rw [Function.update_self, inPoll, since_did_self, List.length_cons, picks_cons]
      simp only [inPoll] at hold
      omega
    · have hpaid := stepsLeft_other hr (t := t) (u := u) (d := d)
      rw [Function.update_of_ne (Ne.symm hut), inPoll, since_did_ne hut]
      simp only [inPoll] at hold
      dsimp only at hpaid
      omega
  · intro tr m pc u x p hr hi hj t
    by_cases hut : u = t
    · subst hut
      have hstart := stepsLeft_jump hj (latched m p)
      rw [Function.update_self, inPoll, since_chose_call rfl, List.length_nil]
      omega
    · have hwakes : wakes (.chose u x :: tr) t = wakes tr t := if_neg hut
      rw [Function.update_of_ne (Ne.symm hut), hwakes, inPoll, since_chose_ne hut]
      exact hi t
  · intro tr m pc e m' b hr hi he t
    have hsame : latched m' (pc t) = latched m (pc t) := by
      rw [latched, timer_signalled_eq hr he]
      rfl
    rw [hsame]
    exact hi t

/-- The latch of a waiter in the registry is unset: only a notification that has taken a waiter sets
it. -/
lemma not_signalled_of_mem (h : (program maxInstant).Run s₀ tr c) {g : Registration}
    (hg : g ∈ c.mem.registrations) : c.mem.signalled g.waiter = false := by
  have hh := (typed maxInstant Tid).history h
  refine Bool.eq_false_iff.mpr fun hset => ?_
  rcases hh.latch _ hset with ⟨g', hg', hwaiter⟩ | hhanded
  · obtain rfl := hh.eq_of_waiter_eq (hh.made_of_taken hg') (hh.made_of_mem hg) hwaiter
    exact hh.not_taken_of_mem hg hg'
  · rw [← hh.handed, handed_nil h] at hhanded
    cases hhanded

/-- No future is being polled. -/
def AtRest (pc : Tid → Pc σ ρ) : Prop := ∀ t, pc t = .idle ∨ Suspended (pc t) = true

/-- A future that is not being polled owns at most its registration. -/
lemma typ_of_suspended {p : Pc σ ρ} (h : p = .idle ∨ Suspended p = true) :
    (typ p).holds = false ∧ (typ p).sig = [] ∧
      ∀ g, (typ p).reg = some g → ∃ timed w n, p = .waitPending timed w n g := by
  rcases h with rfl | h
  · refine ⟨rfl, rfl, fun g hg => ?_⟩
    cases hg
  · cases p with
    | waitPending timed w n g =>
      refine ⟨rfl, rfl, fun g' hg => ?_⟩
      cases hg
      exact ⟨timed, w, n, rfl⟩
    | created | lockPending | relockPending =>
      refine ⟨rfl, rfl, fun g hg => ?_⟩
      cases hg
    | _ => cases h

/-- **Polls of a Tokio monitor make progress.** In every state of every run a future that is being
polled can go on, whatever the outside world decides. A poll makes at most 14 steps, and 12 more for
each notification that signals it meanwhile and one for each waiter that it selects itself. While no
future is being polled, the state lock is free, the registrations in the registry are those of
suspended waits, and a suspended wait is in the registry exactly if it has not been notified.

**Proof sketch.** A future that is being polled never waits, because it tries the lock and is not
parked. The bound is the potential `length_inPoll_add`. At rest nobody holds the lock or owes a signal,
so the owner of a registration is suspended, and the source of a wake (`Owned`) is the registry or the
latch. -/
theorem polls_progress (h : (program maxInstant).Run s₀ tr c) :
    (∀ t, c.pc t ≠ .idle → Suspended (c.pc t) = false → ∀ fault,
      ((program maxInstant).threads.fire c.mem t fault (c.pc t)).isSome) ∧
    (∀ t, (inPoll tr t).length ≤ 14 + 12 * wakes tr t + picks (inPoll tr t)) ∧
    (AtRest c.pc → c.mem.owner = none ∧
      (∀ g ∈ c.mem.registrations, ∃ t timed w n, c.pc t = .waitPending timed w n g) ∧
      ∀ t timed w n g, c.pc t = .waitPending timed w n g →
        (g ∈ c.mem.registrations ↔ c.mem.signalled g.waiter = false)) := by
  have howned := (typed maxInstant Tid).owned h
  refine ⟨?_, fun t => (Nat.le_add_right _ _).trans (length_inPoll_add h t), ?_⟩
  · intro t hidle hsus fault
    refine Cmd.isSome_fire_iff.mpr (Classical.not_not.mp fun hnot => ?_)
    rcases (typed maxInstant Tid).waits_for howned hnot with hcode | ⟨k, u, hcode, -⟩ |
      ⟨k, g, hcode, -⟩
    · rcases suspended_of_suspend hcode with hp | hp
      · exact hidle hp
      · rw [hsus] at hp
        cases hp
    · exact code_ne_lock hcode
    · exact code_ne_park hcode
  · intro hrest
    refine ⟨?_, ?_, ?_⟩
    · refine Option.eq_none_iff_forall_ne_some.mpr fun t ht => ?_
      have hheld : (typ (c.pc t)).holds = true := (howned.lock.owner t).mp ht
      rw [(typ_of_suspended (hrest t)).1] at hheld
      cases hheld
    · intro g hg
      obtain ⟨t, ht⟩ := howned.reg.live hg
      exact ⟨t, (typ_of_suspended (hrest t)).2.2 g ht⟩
    · intro t timed w n g hp
      refine ⟨not_signalled_of_mem h, fun hunset => ?_⟩
      rcases howned.source t g (by rw [hp]; rfl) with hin | ⟨u, hu⟩ | hset
      · exact hin
      · have hsig : g.waiter ∈ (typ (c.pc u)).sig := hu
        rw [(typ_of_suspended (hrest u)).2.1] at hsig
        cases hsig
      · rw [hunset] at hset
        cases hset

/-- A wait is suspended with its registration in the registry, and nobody is being polled. -/
theorem polls_progress_suspended :
    ∃ (tr : List (Program.Label ℕ Unit (Choice ℕ Unit) Bool))
      (c : Threads.Conf (Mem ℕ Bool) Bool (Pc ℕ Unit)),
      (program 100).Run ⟨0, 0, false⟩ tr c ∧ AtRest c.pc ∧ (inPoll tr false).length = 5 ∧
      c.mem.owner = none ∧ (∀ t, (inPoll tr t).length ≤ 14 + 12 * wakes tr t + picks (inPoll tr t)) ∧
      ∀ t timed w n g, c.pc t = .waitPending timed w n g →
        (g ∈ c.mem.registrations ↔ c.mem.signalled g.waiter = false) := by
  have hr : ∃ (tr : List (Program.Label ℕ Unit (Choice ℕ Unit) Bool))
      (c : Threads.Conf (Mem ℕ Bool) Bool (Pc ℕ Unit)),
      (program 100).Run ⟨0, 0, false⟩ tr c ∧ AtRest c.pc ∧ (inPoll tr false).length = 5 := by
    refine ⟨_, _, Lts.Run.nil.cons (.choose false (.call (.waitWhileAsync
      ⟨fun _ v => some (v == 0), fun v => (v + 10, some ())⟩))) rfl
      |>.cons (.choose false .poll) rfl |>.cons (.run false none) rfl |>.cons (.run false none) rfl
      |>.cons (.run false none) rfl |>.cons (.run false none) rfl |>.cons (.run false none) rfl,
      fun t => ?_, rfl⟩
    cases t
    · exact .inr rfl
    · exact .inl rfl
  obtain ⟨tr, c, hr, hrest, hlen⟩ := hr
  obtain ⟨-, hbound, hfree⟩ := polls_progress hr
  obtain ⟨howner, -, hexact⟩ := hfree hrest
  exact ⟨tr, c, hr, hrest, hlen, howner, hbound, hexact⟩

end QubitLock.Tokio
