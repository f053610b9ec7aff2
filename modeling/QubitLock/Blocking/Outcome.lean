import QubitLock.Blocking.Calls
import QubitLock.Monitor.TimedWait

set_option relaxedAutoImplicit false
set_option autoImplicit false

/-!
# The outcome of the blocking timed waits

`wait_while_for`, `wait_while_with_deadline` and `wait_while_with_total_timeout` follow the protocol
of `Monitor/TimedWait.lean`: every program counter of a timed wait lies in a phase, and every
primitive leads from phase to phase. The contract follows in every run, whatever the other threads
and the Timer do.

## Main definitions

* `Blocking.Call.limit` — how the deadline of a call is given.
* `Blocking.phase` — the phase of a timed wait at each program counter.

## Main results

* `Blocking.timed_waits_keep_contract` — the contract of the timed waits.
-/

namespace QubitLock.Blocking

variable {σ ρ : Type}

/-- How the deadline of a timed predicate wait is given. -/
def Call.limit : Call σ ρ → Option Limit
  | .op (.waitWhileFor timeout _) => some (.budget timeout)
  | .op (.waitWhileWithDeadline deadline _) => some (.instant deadline)
  | .op (.waitWhileWithTotalTimeout timeout _) => some (.total timeout)
  | _ => none

/-- The phase of a timed predicate wait at each program counter. -/
def phase : Pc σ ρ → Phase ρ
  | .deadlineAfter _ _ => .begun
  | .acquire (.sample _ _) => .acquiring none
  | .acquire (.checkDeadline deadline _) => .acquiring (some deadline)
  | .sample _ _ => .locked
  | .checkFor timeout startedAt _ => .opened (startedAt + timeout)
  | .checkDeadline deadline _ => .opened deadline
  | .timerAt deadline (.loop _ _) _ => .blocked deadline
  | .earlyPoll _ => .early
  | .pollNoWaiter (.loop _ _) | .register true (.loop _ _) | .pollRegistered (.loop _ _) _ |
    .release true (.loop _ _) _ | .park true (.loop _ _) _ | .dropRegistration true (.loop _ _) _ |
    .reacquireTimed (.loop _ _) _ | .finalPoll (.loop _ _) _ => .looping false
  | .dropEarly (.loop _ _) _ (.ok _) => .looping true
  | .dropEarly (.loop _ _) _ (.error e) => .failing e
  | .recheck _ _ status => .looping status.isTimedOut
  | .act _ true => .stopped
  | .finish out => returning out
  | .done (.timed (.error e)) => .overflowed e
  | .unwindGuard => .unwinding
  | .idle => .left
  | _ => .never

/-- The call is a timed predicate wait, and its reports lead to its phase. -/
def Follows (maxInstant : ℕ) (o : Call σ ρ) (ds : List (Did σ ρ)) (p : Pc σ ρ) : Prop :=
  ∀ l w, o.limit = some l → o.condition = some w → l.Spec maxInstant w.f ds (phase p)

/-- The operations of a guard are no predicate waits. -/
lemma Call.Waits.loop {o : Call σ ρ} {timed : Bool} {k : Caller σ ρ} {l : Limit}
    (hk : o.Waits timed k) (hl : o.limit = some l) :
    ∃ w n, k = .loop w n ∧ o.condition = some w ∧ timed = true := by
  cases k with
  | guard =>
    cases o with
    | op => cases hk.1
    | guard => cases hl
  | loop w n =>
    refine ⟨w, n, rfl, hk.1, ?_⟩
    rw [← hk.2]
    cases o with
    | op op => cases op <;> first | rfl | cases hl
    | guard => cases hl

/-- A wait with a known deadline that takes the lock. -/
lemma limit_of_enters {o : Call σ ρ} {timeout : ℕ} {w : Condition σ ρ} {l : Limit}
    (h : o.Enters (.sample timeout w)) (hl : o.limit = some l) : l = .budget timeout := by
  obtain rfl : o = _ := h
  cases hl
  rfl

/-- A poll of the Timer future ends a timed guard wait if the future is ready. -/
lemma follows_ready {maxInstant : ℕ} {l : Limit} {f : σ → σ × Option ρ} {ds : List (Did σ ρ)}
    {w : Condition σ ρ} {n : ℕ} {wk : Waker} {r : Except TimeError Unit}
    (h : l.Spec maxInstant f ds (.looping false)) :
    l.Spec maxInstant f (.polled wk (.ready r) :: ds)
      (phase (resumeTimed (.loop w n) (r.map fun _ => .timedOut))) := by
  cases r with
  | ok _ => exact h.reached
  | error e => exact h.failing.failed

/-- **The primitives of a timed wait lead from phase to phase.**

**Proof sketch.** One case for each program counter. Each of them belongs to one phase of a timed wait,
and a primitive either stays in its phase or enters the next one, with the rule for that transition. -/
lemma follows_reports {maxInstant : ℕ} {p p' : Pc σ ρ} {d : Did σ ρ} {o : Call σ ρ}
    {ds : List (Did σ ρ)} (h : (code maxInstant p).Reports d p') (hat : At o p)
    (hf : Follows maxInstant o ds p) : Follows maxInstant o (d :: ds) p' := by
  intro l w₀ hl hw₀
  have hspec := hf l w₀ hl hw₀
  cases p with
  | idle => cases hat
  | acquire e =>
    cases h
    cases e with
    | sample timeout w => exact Acquiring.acquired hspec
    | checkDeadline deadline w => exact Acquiring.opened hspec
    | _ => cases hspec
  | deadlineAfter timeout w =>
    obtain rfl : o = _ := hat
    cases hl
    obtain rfl : ds = [] := hspec
    cases h with
    | now _ now =>
      dsimp only
      split
      · rename_i deadline hd
        obtain ⟨rfl, hmax⟩ := checkedAdd_eq_ok.mp hd
        have hnil : ∀ d ∈ ([] : List (Did σ ρ)), d = .contended := by simp
        exact Acquiring.total hnil hmax
      · rename_i e he
        obtain ⟨rfl, hmax⟩ := checkedAdd_eq_error.mp he
        exact Overflowed.total hmax
  | sample timeout w =>
    obtain rfl := limit_of_enters hat hl
    cases h
    exact Opened.budget hspec
  | checkFor timeout startedAt w =>
    obtain rfl := limit_of_enters hat hl
    cases h with
    | check _ _ v =>
      rcases w.waiting 0 v with _ | _ | _
      · exact Limit.Spec.unwinding hspec nofun nofun nofun
      · exact ⟨v, .first hspec⟩
      · have hb : Blocked maxInstant (.budget timeout) (startedAt + timeout) v _ := .checked hspec
        dsimp only
        split
        · rename_i hzero
          subst hzero
          exact GaveUp.empty hb
        · rename_i hzero
          split
          · rename_i deadline hd
            obtain ⟨rfl, hmax⟩ := checkedAdd_eq_ok.mp hd
            exact ⟨⟨hzero, hmax⟩, v, hb⟩
          · rename_i e he
            obtain ⟨rfl, hmax⟩ := checkedAdd_eq_error.mp he
            exact Failed.overflow hb hzero hmax
  | checkDeadline deadline w =>
    have harms : l.Arms maxInstant deadline := by
      rcases hat with rfl | ⟨timeout, rfl⟩ <;> cases hl <;> trivial
    cases h with
    | check _ _ v =>
      rcases w.waiting 0 v with _ | _ | _
      · exact Limit.Spec.unwinding hspec nofun nofun nofun
      · exact ⟨v, .first hspec⟩
      · exact ⟨harms, v, .checked hspec⟩
  | timerAt deadline k early =>
    obtain ⟨w, n, rfl, -, -⟩ := (waits_of_timerAt hat).loop hl
    cases h with
    | timerAt _ _ r =>
      cases r with
      | error e =>
        obtain ⟨ha, v₀, hb⟩ := hspec
        exact Failed.refused hb ha
      | ok _ =>
        cases early with
        | true => exact Limit.Spec.early hspec
        | false => exact (Limit.Spec.early hspec).looping
  | earlyPoll w =>
    cases h with
    | pollTimer _ _ r =>
      rcases r with _ | e | _
      · exact (Limit.Spec.looping hspec).step trivial
      · exact (Limit.Spec.looping hspec).failing.failed
      · exact Limit.Spec.gaveUp_early hspec
  | recheck w n status =>
    cases h with
    | check _ _ v =>
      rcases w.waiting n v with _ | _ | _
      · exact Limit.Spec.unwinding hspec nofun nofun nofun
      · exact Limit.Spec.stopped hspec v
      · cases status with
        | woken => exact Limit.Spec.step hspec trivial
        | timedOut => exact Limit.Spec.gaveUp hspec v
  | act w timed =>
    obtain ⟨hcond, rfl⟩ := hat
    obtain rfl : w₀ = w := by
      rw [hw₀] at hcond
      exact Option.some.inj hcond
    have htimed : o.timed = true := by
      cases o with
      | op op => cases op <;> first | rfl | cases hl
      | guard => cases hl
    rw [htimed] at hspec h
    obtain ⟨v', hs⟩ := hspec
    cases h with
    | write _ _ v =>
      cases hr : (w₀.f v).2 with
      | none => exact hs.frugal.cons nofun nofun
      | some r => exact ⟨v, v', ds, rfl, hs⟩
  | pollNoWaiter k =>
    obtain ⟨w, n, rfl, -, -⟩ := Call.Waits.loop hat hl
    cases h with
    | pollTimer _ _ r =>
      cases r with
      | pending => exact Limit.Spec.step hspec trivial
      | ready r => exact follows_ready hspec
  | register timed k =>
    obtain ⟨w, n, rfl, -, rfl⟩ := Call.Waits.loop hat hl
    cases h with
    | register _ g =>
      cases g with
      | none => exact Limit.Spec.unwinding hspec nofun nofun nofun
      | some g => exact Limit.Spec.step hspec trivial
  | pollRegistered k g =>
    obtain ⟨w, n, rfl, -, -⟩ := Call.Waits.loop hat hl
    cases h with
    | pollTimer _ _ r =>
      rcases r with _ | _ | _
      · exact Limit.Spec.step hspec trivial
      · exact Limit.Spec.failing hspec
      · exact Limit.Spec.reached hspec
  | dropEarly k g r =>
    obtain ⟨w, n, rfl, -, -⟩ := Call.Waits.loop hat hl
    cases h
    cases r with
    | ok _ => exact Limit.Spec.step hspec trivial
    | error e =>
      obtain ⟨deadline, v₀, hfail⟩ := hspec
      exact Failed.failing hfail.unregistered
  | release timed k g | park timed k g =>
    obtain ⟨w, n, rfl, -, rfl⟩ := Call.Waits.loop hat hl
    cases h
    exact Limit.Spec.step hspec trivial
  | dropRegistration timed k g =>
    obtain ⟨w, n, rfl, -, rfl⟩ := Call.Waits.loop hat hl
    cases h
    exact Limit.Spec.step hspec trivial
  | reacquireTimed k a =>
    obtain ⟨w, n, rfl, -, -⟩ := Call.Waits.loop hat hl
    cases h
    exact Limit.Spec.step hspec trivial
  | finalPoll k a =>
    obtain ⟨w, n, rfl, -, -⟩ := Call.Waits.loop hat hl
    cases h with
    | pollTimer _ _ r =>
      cases r with
      | pending => exact Limit.Spec.step hspec trivial
      | ready r => exact follows_ready hspec
  | finish | done | unwindGuard =>
    cases h
    trivial
  | _ => cases hspec

variable {Tid : Type} [DecidableEq Tid] {s₀ : Setup σ}
  {tr : List (Program.Label σ ρ (Choice σ ρ) Tid)} {c : Threads.Conf (Mem σ Tid) Tid (Pc σ ρ)}

/-- Every timed wait follows the protocol. -/
lemma follows_of_run (maxInstant : ℕ) (h : (program maxInstant).Run s₀ tr c) (t : Tid) :
    User (c.pc t) ∨ ∃ o, lastCall Choice.called tr t = some o ∧ At o (c.pc t) ∧
      Follows maxInstant o (since Choice.called tr t) (c.pc t) := by
  refine (calls maxInstant).conduct (typed maxInstant Tid) (V := Follows maxInstant) ?_ ?_
    follows_reports h t
  · intro p x p' o hj hx l w hl hw
    cases p <;> cases x <;> cases hj <;> cases hx
    · rename_i op
      cases op <;> cases hl
      · exact Acquiring.budget (by simp)
      · exact Acquiring.instant (by simp)
      · rfl
    · cases hl
  · intro p x p' o ds hj hx hat hc
    cases p <;> cases x <;> cases hj <;> cases hx <;> cases hat

/-- A wait in progress is not over. -/
lemma phase_ne_left {p : Pc σ ρ} (hu : ¬ User p) : phase p ≠ .left := by
  unfold phase
  split
  all_goals first | exact returning_ne_left _ | exact absurd trivial hu | nofun

/-- **The contract of the blocking timed waits.** Let the Timer complete no future with success before
its deadline, and let `o` be a timed wait with a pure predicate `p`. While it is in progress it has
sampled the clock at most once and requested at most one Timer future. When it returns, it holds the
state lock and has kept the contract; the one exception is a total budget that is not representable,
which is reported before the lock is taken.

**Proof sketch.** In every run the reports of a timed wait are in the phase of its program counter
(`follows_reports`), and every phase is frugal. A wait returns without the lock only with the overflow
of a total budget; with the lock its phase is that of an outcome, and what led to it is the contract
(`Program.Typed.contract`), where the value is the one of the last check because the lock was held
since. -/
theorem timed_waits_keep_contract (maxInstant : ℕ) (s₀ : Setup σ)
    {tr : List (Program.Label σ ρ (Choice σ ρ) Tid)} {c : Threads.Conf (Mem σ Tid) Tid (Pc σ ρ)}
    (h : (program maxInstant).Run s₀ tr c) (hh : Honest tr) {t : Tid} {o : Call σ ρ} {l : Limit}
    {w : Condition σ ρ} {p : σ → Bool} (hl : o.limit = some l) (hw : o.condition = some w)
    (hp : w.Pure p) :
    (lastCall Choice.called tr t = some o → ¬ User (c.pc t) →
      l.Frugal maxInstant (since Choice.called tr t)) ∧
    ∀ out v now past, .did t (.returned out v now) :: past <:+ tr →
      lastCall Choice.called past t = some o →
      (∃ e, out = .timed (.error e) ∧
        Overflowed maxInstant l e (since Choice.called past t)) ∨
      ((∃ m pc, (program maxInstant).Run s₀ past ⟨m, pc⟩ ∧ m.owner = some t ∧ m.value = v ∧
          m.clock = now) ∧
        ∃ deadline v₀, Contract maxInstant l w.f p deadline v₀ (since Choice.called past t)
          out v now) := by
  constructor
  · intro ho hu
    obtain ⟨o', ho', hat, hf⟩ := (follows_of_run maxInstant h t).resolve_left hu
    obtain rfl : o = o' := Option.some.inj (ho.symm.trans ho')
    exact (hf l w hl hw).frugal (phase_ne_left hu)
  · intro out v now past hs ho
    obtain ⟨m, pc, p', hr, hfire⟩ := (typed maxInstant Tid).fires_of_suffix h hs
    have hreports : (code maxInstant (pc t)).Reports (.returned out v now) p' := hfire.reports
    obtain ⟨rfl, rfl⟩ : v = m.value ∧ now = m.clock := hfire.allows
    have hu : ¬ User (pc t) := by
      intro hu
      cases eq_unwound_of_user hreports hu
    obtain ⟨o₁, ho₁, -, hanswers⟩ :=
      ((calls maxInstant).answers (typed maxInstant Tid) condition_of_checked hr t).resolve_left hu
    obtain rfl : o = o₁ := Option.some.inj (ho.symm.trans ho₁)
    obtain ⟨o₂, ho₂, -, hfollows⟩ := (follows_of_run maxInstant hr t).resolve_left hu
    obtain rfl : o = o₂ := Option.some.inj (ho.symm.trans ho₂)
    have hspec : l.Spec maxInstant w.f _ (phase (pc t)) := hfollows l w hl hw
    cases hpc : pc t with
    | done out' =>
      rw [hpc] at hspec hreports
      cases hreports
      cases out with
      | timed r =>
        cases r with
        | error e => exact .inl ⟨e, rfl, hspec⟩
        | ok _ => cases hspec
      | _ => cases hspec
    | finish out' =>
      have hheld : (typ (pc t)).holds = true := by rw [hpc]; rfl
      rw [hpc] at hspec hreports
      cases hreports
      have howner := (((typed maxInstant Tid).owned hr).lock.owner t).mpr hheld
      have hpast := hh.of_suffix ((List.suffix_cons _ _).trans hs)
      exact .inr ⟨⟨m, pc, hr, howner, rfl, rfl⟩,
        (typed maxInstant Tid).contract hr hpast hheld hspec (hanswers w p hw hp)⟩
    | notify n out' =>
      rw [hpc] at hreports
      cases n <;> cases hreports
    | _ =>
      rw [hpc] at hreports
      cases hreports

/-- A wait with a budget of five ticks is suspended, its deadline passes, and the Timer wakes it. -/
def expiredBudget : List (Threads.Event Bool (Option TimeError) (Choice ℕ Unit)
    (TimerEvent Bool)) :=
  [.choose false (.call (.waitWhileFor 5 ⟨fun _ v => some (v == 0), fun v => (v, some ())⟩)),
    .run false none, .run false none, .run false none, .run false none, .run false none,
    .run false none, .run false none, .run false none,
    .ambient (.tick 5), .ambient (.complete false (.ok ())), .ambient (.wake 0),
    .run false none, .run false none, .run false none, .run false none, .run false none,
    .run false none]

/-- In the run of `expiredBudget` the wait returns `TimedOut` at time `5`, with its contract kept. -/
theorem timed_waits_keep_contract_expired :
    ∃ tr past, ∃ c : Threads.Conf (Mem ℕ Bool) Bool (Pc ℕ Unit), ∃ w : Condition ℕ Unit,
      (program 100).Run ⟨0, 0, true⟩ tr c ∧ Honest tr ∧ w.Pure (· == 0) ∧
      tr = .did false (.returned (.timed (.ok .timedOut)) 0 5) :: past ∧
      ∃ deadline v₀, Contract 100 (.budget 5) w.f (· == 0) deadline v₀
        (since Choice.called past false) (.timed (.ok .timedOut)) 0 5 := by
  obtain ⟨tr, c, hr, hp, hes⟩ := (program 100).threads.exists_run_of_play
    ((program 100).start ⟨0, 0, true⟩) expiredBudget
    (p := fun s => Honest s.2 ∧
      lastReturn s.2 = some (false, .timed (.ok .timedOut), 0, 5) ∧
      (lastCall Choice.called s.2.tail false).isSome) (by decide)
  simp only [decide_eq_true_eq] at hp
  obtain ⟨hh, hreturn, hlast⟩ := hp
  obtain ⟨past, rfl⟩ := lastReturn_eq_some hreturn
  obtain ⟨o, ho⟩ := Option.isSome_iff_exists.mp hlast
  obtain ⟨x, hx, hmem⟩ := call_mem ho
  have := hes _ _ (List.mem_cons_of_mem _ hmem)
  simp only [expiredBudget, List.mem_cons, Threads.Event.choose.injEq, reduceCtorEq, or_false,
    List.not_mem_nil, true_and] at this
  obtain rfl := this
  cases hx
  have hpure : Condition.Pure (ρ := Unit) ⟨fun _ v => some (v == 0), fun v => (v, some ())⟩
    (· == 0) := fun _ _ => rfl
  refine ⟨_, past, c, _, hr, hh, hpure, rfl, ?_⟩
  obtain ⟨-, hcontract⟩ := timed_waits_keep_contract 100 _ hr hh (t := false) (l := .budget 5)
    (o := .op (.waitWhileFor 5 _)) rfl rfl hpure
  rcases hcontract _ _ _ past (List.suffix_refl _) ho with ⟨e, he, -⟩ | ⟨-, hc⟩
  · cases he
  · exact hc

end QubitLock.Blocking
