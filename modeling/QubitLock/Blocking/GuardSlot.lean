import QubitLock.Blocking.Calls
import QubitLock.Monitor.Conduct

set_option relaxedAutoImplicit false
set_option autoImplicit false

/-!
# The slot of a monitor guard

`StdMonitorGuard` and `ParkingLotMonitorGuard` keep the guard of the state mutex in a slot, because a
wait has to take it out and to put a new one in while user code owns the monitor guard. Every
operation of a monitor guard expects the slot to be occupied. `wait_with_timer` has five exits: two
never release the lock, two release it and take it back, and one is a panic.

## Main definitions

* `Blocking.SlotSafe` — the slots and the state lock.
* `Blocking.HeldThroughout` — the state lock was held and the value unchanged during a call.

## Main results

* `Blocking.guard_slot_safety` — both, in every run.
-/

namespace QubitLock.Blocking

variable {σ ρ : Type}

/-- The operation is a timed wait on a guard. -/
def GuardOp.isTimedWait : GuardOp σ ρ → Bool
  | .waitFor _ | .waitUntil _ => true
  | _ => false

/-! ## The reports of a timed wait on a guard -/

/-- A call that returns or unwinds gives up its guard and goes back to user code. -/
lemma eq_idle_of_reports {maxInstant : ℕ} {p p' : Pc σ ρ} {d : Did σ ρ}
    (h : (code maxInstant p).Reports d p')
    (hd : (∃ out v now, d = .returned out v now) ∨ d = .unwound) : p' = .idle := by
  rcases hd with ⟨out, v, now, rfl⟩ | rfl
  all_goals
    cases p with
    | notify n out => cases n <;> cases h
    | _ => cases h <;> rfl

/-- A call that writes has a closure to do so. -/
lemma closure_of_wrote {maxInstant : ℕ} {o : Call σ ρ} {p p' : Pc σ ρ} {f : σ → σ × Option ρ}
    {v : σ} {r : Option ρ} (h : (code maxInstant p).Reports (.wrote f v r) p') (hat : At o p) :
    (∃ n, o.Enters (.write f n)) ∨ o = .guard (.derefMut f) ∨
      ∃ w, o.condition = some w ∧ f = w.f := by
  cases p with
  | write f' n =>
    cases h
    exact .inl ⟨n, hat⟩
  | guardWrite f' =>
    cases h
    exact .inr (.inl hat)
  | act w timed =>
    cases h
    exact .inr (.inr ⟨w, hat.1, rfl⟩)
  | notify n out => cases n <;> cases h
  | _ => cases h

/-- A timed wait on a guard does not write. -/
lemma not_wrote_of_isTimedWait {maxInstant : ℕ} {op : GuardOp σ ρ} {p p' : Pc σ ρ}
    {f : σ → σ × Option ρ} {v : σ} {r : Option ρ} (hop : op.isTimedWait = true)
    (hat : At (.guard op) p) : ¬ (code maxInstant p).Reports (.wrote f v r) p' := by
  intro h
  rcases closure_of_wrote h hat with ⟨n, henter⟩ | heq | ⟨w, hcond, -⟩
  · rcases n with _ | _ | _ <;> cases henter
  · cases heq
    cases hop
  · cases hcond

variable {Tid : Type} [DecidableEq Tid] {s₀ : Setup σ}
  {tr : List (Program.Label σ ρ (Choice σ ρ) Tid)} {c : Threads.Conf (Mem σ Tid) Tid (Pc σ ρ)}

/-- A timed wait on a guard that is in progress has neither written nor given up its guard, but for
the release of its suspension. -/
lemma keepsGuard_of_isTimedWait (maxInstant : ℕ) (h : (program maxInstant).Run s₀ tr c) {t : Tid}
    (hu : ¬ User (c.pc t)) {op : GuardOp σ ρ} (hop : op.isTimedWait = true)
    (ho : lastCall Choice.called tr t = some (.guard op)) :
    ∀ d ∈ since Choice.called tr t, d ≠ .unlocked → d.keepsGuard = true := by
  have hconduct := (calls maxInstant).conduct (typed maxInstant Tid) (V := fun o ds p =>
    ∀ op : GuardOp σ ρ, op.isTimedWait = true → o = .guard op → ¬ User p →
      ∀ d ∈ ds, d ≠ .unlocked → d.keepsGuard = true) ?_ ?_ ?_ h t
  · obtain ⟨o, ho', -, hv⟩ := hconduct.resolve_left hu
    exact hv op hop (Option.some.inj (ho'.symm.trans ho)) hu
  · intro p x p' o hj hx op hop ho hu d hd
    cases hd
  · intro p x p' o ds hj hx hat
    cases p <;> cases x <;> cases hj <;> cases hx <;> cases hat
  · intro p d p' o ds hreports hat hv op hop ho hu
    subst ho
    have hu' : ¬ User p := fun hup => hu ((calls maxInstant).reports_user hreports hup)
    refine List.forall_mem_cons.mpr ⟨fun hne => ?_, hv op hop rfl hu'⟩
    cases d with
    | unlocked => exact absurd rfl hne
    | wrote f v r => exact absurd hreports (not_wrote_of_isTimedWait hop hat)
    | returned out v now =>
      obtain rfl := eq_idle_of_reports hreports (.inl ⟨out, v, now, rfl⟩)
      exact absurd trivial hu
    | unwound =>
      obtain rfl := eq_idle_of_reports hreports (.inr rfl)
      exact absurd trivial hu
    | _ => rfl

/-! ## The slots in a run -/

/-- The guard slots of a monitor: a thread's slot is occupied exactly when the thread owns the state
lock, no two slots are, no operation found its slot empty, and the slot is occupied when an operation
of a guard begins and when it returns to its user, with any result or with a panic. -/
structure SlotSafe (tr : List (Program.Label σ ρ (Choice σ ρ) Tid)) (m : Mem σ Tid) : Prop where
  occupied : ∀ t, m.slot t = true ↔ m.owner = some t
  unique : ∀ t u, m.slot t = true → m.slot u = true → t = u
  not_empty : ∀ t, .did t .slotEmpty ∉ tr
  before : ∀ t op past, tr = .chose t (.guard op) :: past → m.slot t = true
  after : ∀ t out v now past, tr = .did t (.guardReturned out v now) :: past → m.slot t = true

/-- A thread owns the guard when an operation of the guard begins, and when it returns. -/
lemma holds_around_operation (maxInstant : ℕ) (h : (program maxInstant).Run s₀ tr c) :
    (∀ t op past, tr = .chose t (.guard op) :: past → (typ (c.pc t)).holds = true) ∧
      ∀ t out v now past, tr = .did t (.guardReturned out v now) :: past →
        (typ (c.pc t)).holds = true := by
  refine (typed maxInstant Tid).rule (I := fun tr _ pc =>
    (∀ t op past, tr = .chose t (.guard op) :: past → (typ (pc t)).holds = true) ∧
      ∀ t out v now past, tr = .did t (.guardReturned out v now) :: past →
        (typ (pc t)).holds = true) ⟨nofun, nofun⟩ ?_ ?_ ?_ h
  · intro tr m pc u d p hr _ hf
    refine ⟨nofun, ?_⟩
    rintro t out v now past heq
    cases heq
    rw [Function.update_self]
    exact hf.step.2.holds
  · intro tr m pc u x p hr _ hj
    refine ⟨?_, nofun⟩
    rintro t op past heq
    cases heq
    rw [Function.update_self]
    cases hp : pc u <;> rw [hp] at hj <;> cases hj
    rw [typ_guard_begin]
    rfl
  · intro tr m pc e m' b hr _ he
    exact ⟨nofun, nofun⟩

/-- The slots are safe in every run. -/
lemma slotSafe_of_run (maxInstant : ℕ) (h : (program maxInstant).Run s₀ tr c) :
    SlotSafe tr c.mem := by
  have hlock := ((typed maxInstant Tid).owned h).lock
  obtain ⟨hbegin, hreturn⟩ := holds_around_operation maxInstant h
  refine ⟨fun t => ?_, fun t u ht hu => ?_, fun t hmem => ?_, fun t op past htr => ?_,
    fun t out v now past htr => ?_⟩
  · rw [hlock.slot t, hlock.owner t]
  · rw [hlock.slot] at ht hu
    exact hlock.holds_inj ht hu
  · obtain ⟨later, past, rfl⟩ := List.append_of_mem hmem
    obtain ⟨m, pc, p, -, hfire⟩ :=
      (typed maxInstant Tid).fires_of_suffix h (List.suffix_append later _)
    exact hfire.step.1
  · rw [hlock.slot t]
    exact hbegin t op past htr
  · rw [hlock.slot t]
    exact hreturn t out v now past htr

/-- The thread `t` called `op` on its guard, and in the run up to the trace `past` it has owned the
state lock ever since, nobody has committed anything, and the protected value has been `v`. -/
def HeldThroughout (maxInstant : ℕ) (s₀ : Setup σ)
    (past : List (Program.Label σ ρ (Choice σ ρ) Tid)) (t : Tid) (op : GuardOp σ ρ) (v : σ) : Prop :=
  ∃ later before, past = later ++ .chose t (.guard op) :: before ∧ commits later = [] ∧
    ∀ mid, ∀ c : Threads.Conf (Mem σ Tid) Tid (Pc σ ρ), mid <:+ later →
      (program maxInstant).Run s₀ (mid ++ .chose t (.guard op) :: before) c →
      c.mem.owner = some t ∧ c.mem.value = v

/-- **The guard slots are safe.** In every run of a blocking monitor, with any number of threads and
any Timer, the slots are safe. Moreover, when `wait_for` or `wait_until` returns and did not suspend,
the state lock was held throughout and the value is unchanged.

**Proof sketch.** The slot is occupied exactly at the places that hold the lock, from the typing. A
timed wait that never reports an unlock has kept its guard at every report, so it has held the lock
since its call, and while it holds the lock nobody else commits. -/
theorem guard_slot_safety (maxInstant : ℕ) (s₀ : Setup σ)
    {tr : List (Program.Label σ ρ (Choice σ ρ) Tid)} {c : Threads.Conf (Mem σ Tid) Tid (Pc σ ρ)}
    (h : (program maxInstant).Run s₀ tr c) :
    SlotSafe tr c.mem ∧
    ∀ t op out v now past, .did t (.guardReturned out v now) :: past <:+ tr →
      lastCall Choice.called past t = some (.guard op) → op.isTimedWait = true →
      .unlocked ∉ since Choice.called past t → HeldThroughout maxInstant s₀ past t op v := by
  refine ⟨slotSafe_of_run maxInstant h, ?_⟩
  intro t op out v now past hs ho hop hunlocked
  obtain ⟨m, pc, p, hr, hfire⟩ := (typed maxInstant Tid).fires_of_suffix h hs
  have hreports : (code maxInstant (pc t)).Reports (.guardReturned out v now) p := hfire.reports
  have hu : ¬ User (pc t) := by
    intro hu
    cases eq_unwound_of_user hreports hu
  have hkept := keepsGuard_of_isTimedWait maxInstant hr hu hop ho
  obtain ⟨later, x, before, rfl, hx, hsince⟩ := exists_split_of_lastCall ho
  obtain rfl : x = .guard op := by cases x <;> cases hx; rfl
  have hkept' : ∀ d ∈ reportsOf t later, d.keepsGuard = true := by
    intro d hd
    rw [hsince] at hd
    refine hkept d hd ?_
    rintro rfl
    exact hunlocked hd
  have hheld : ∀ {p p' : Pc σ ρ}, jump p (.guard op) = some p' → (typ p).holds = true := by
    intro p p' hj
    cases p <;> cases hj
    rfl
  have hcommits := ((typed maxInstant Tid).held_since hr hheld rfl hkept').2
  have hvalue : v = replay s₀.value before := by
    rw [hfire.allows.1, (typed maxInstant Tid).value_eq_replay hr, replay_append, hcommits]
    rfl
  refine ⟨later, before, rfl, hcommits, ?_⟩
  rintro mid c' ⟨pre, rfl⟩ hr'
  have hmid : ∀ d ∈ reportsOf t mid, d.keepsGuard = true := by
    intro d hd
    refine hkept' d ?_
    rw [reportsOf_append]
    exact List.mem_append_right _ hd
  obtain ⟨hholds, hcommits'⟩ := (typed maxInstant Tid).held_since hr' hheld rfl hmid
  refine ⟨(((typed maxInstant Tid).owned hr').lock.owner t).mpr hholds, ?_⟩
  rw [(typed maxInstant Tid).value_eq_replay hr', replay_append, hcommits', hvalue]
  rfl

/-- What the latest step of a trace returned to the owner of a guard, if it was such a return. -/
def lastGuardReturn : List (Program.Label σ ρ (Choice σ ρ) Tid) → Option (Tid × Outcome ρ × σ × ℕ)
  | .did t (.guardReturned out v now) :: _ => some (t, out, v, now)
  | _ => none

omit [DecidableEq Tid] in
lemma lastGuardReturn_eq_some {t : Tid} {out : Outcome ρ} {v : σ} {now : ℕ}
    (h : lastGuardReturn tr = some (t, out, v, now)) :
    ∃ past, tr = .did t (.guardReturned out v now) :: past := by
  unfold lastGuardReturn at h
  split at h
  · cases h
    exact ⟨_, rfl⟩
  · cases h

/-- The timeout of a call of `wait_for`. -/
def Call.guardTimeout : Call σ ρ → Option ℕ
  | .guard (.waitFor timeout) => some timeout
  | _ => none

lemma Call.guardTimeout_eq_some {o : Call σ ρ} {timeout : ℕ} (h : o.guardTimeout = some timeout) :
    o = .guard (.waitFor timeout) := by
  unfold Call.guardTimeout at h
  split at h <;> cases h
  rfl

/-- A thread waits on its guard with a Timer that is ready before the registration, while another
thread asks for the lock. -/
def expiredOnGuard : List (Threads.Event Bool (Option TimeError) (Choice ℕ Unit)
    (TimerEvent Bool)) :=
  [.choose false (.call .lock), .run false none, .choose true (.call .lock),
    .choose false (.guard (.waitFor 5)), .run false none, .run false none,
    .ambient (.tick 5), .ambient (.complete false (.ok ())), .run false none, .run false none]

/-- In the run of `expiredOnGuard` the wait returns `TimedOut` with the lock held throughout. -/
theorem guard_slot_safety_expired :
    ∃ tr past, ∃ c : Threads.Conf (Mem ℕ Bool) Bool (Pc ℕ Unit),
      (program 100).Run ⟨0, 0, true⟩ tr c ∧ SlotSafe tr c.mem ∧ c.mem.slot false = true ∧
      tr = .did false (.guardReturned (.status (.ok .timedOut)) 0 5) :: past ∧
      HeldThroughout 100 ⟨0, 0, true⟩ past false (.waitFor 5) 0 := by
  obtain ⟨tr, c, hr, hp, -⟩ := (program 100).threads.exists_run_of_play
    ((program 100).start ⟨0, 0, true⟩) expiredOnGuard
    (p := fun s => lastGuardReturn s.2 = some (false, .status (.ok .timedOut), 0, 5) ∧
      (lastCall Choice.called s.2.tail false).bind Call.guardTimeout = some 5 ∧
      (since Choice.called s.2.tail false).all Did.keepsGuard) (by decide)
  simp only [decide_eq_true_eq] at hp
  obtain ⟨hreturn, hlast, hkept⟩ := hp
  obtain ⟨past, rfl⟩ := lastGuardReturn_eq_some hreturn
  obtain ⟨o, ho, htimeout⟩ := Option.bind_eq_some_iff.mp hlast
  obtain rfl := Call.guardTimeout_eq_some htimeout
  have hunlocked : .unlocked ∉ since Choice.called past false := by
    intro hmem
    exact absurd (List.all_eq_true.mp hkept _ hmem) (by decide)
  obtain ⟨hsafe, hheld⟩ := guard_slot_safety 100 ⟨0, 0, true⟩ hr
  exact ⟨_, past, c, hr, hsafe, hsafe.after _ _ _ _ _ rfl, rfl,
    hheld _ _ _ _ _ past (List.suffix_refl _) ho rfl hunlocked⟩

end QubitLock.Blocking
