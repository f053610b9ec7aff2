import QubitLock.Blocking.Program
import QubitLock.Monitor.History

set_option relaxedAutoImplicit false
set_option autoImplicit false

/-!
# Suspensions of the blocking monitors

A suspension of a guard wait registers a fresh waiter object, polls its Timer with the waiter's
waker if it has one, releases the guard, parks until the latch of the waiter is set, and drops the
registration. This file follows the waiter object through these steps, in every interleaving with
notifications and Timer events.

## Main definitions

* `Blocking.stage` — the suspension that a thread has entered, and whether it has a Timer.
* `Blocking.wakes` — the waiter objects of the suspensions that ended.
* `Blocking.Suspensions` — what is known of the waiter objects of all suspensions.

## Main results

* `Blocking.suspension_reports` — the steps of a suspension.
* `Blocking.suspensions` — `Suspensions` holds in every run.
-/

namespace QubitLock.Blocking

variable {σ ρ : Type}

/-! ## The stages of a suspension -/

/-- The suspension of a guard wait from its release of the guard to its drop of the registration,
and whether it has a Timer. -/
def stage : Pc σ ρ → Option (Bool × Registration)
  | .release timed _ g | .park timed _ g | .dropRegistration timed _ g => some (timed, g)
  | _ => none

/-- The registration of a suspension that has not ended. -/
def asleep : Pc σ ρ → Option Registration
  | .pollRegistered _ g | .release _ _ g | .park _ _ g => some g
  | _ => none

/-- The registration of a suspension that has just ended. -/
def awake : Pc σ ρ → Option Registration
  | .dropRegistration _ _ g => some g
  | _ => none

/-- **The steps of a suspension**: what leads to a program counter with a registration.

**Proof sketch.** Of all places only those of a suspension have a registration afterwards, and each has
one predecessor there. -/
lemma suspension_reports {maxInstant : ℕ} {p p' : Pc σ ρ} {d : Did σ ρ}
    (h : (code maxInstant p).Reports d p') {g : Registration} (hg : (typ p').reg = some g) :
    (∃ timed c, p = .register timed c ∧ d = .registered (some g) ∧
      p' = if timed then .pollRegistered c g else .release false c g) ∨
    (∃ c r, p = .pollRegistered c g ∧ d = .polled (.waiter g.waiter) (.ready r) ∧
      p' = .dropEarly c g r) ∨
    (∃ c, p = .pollRegistered c g ∧ d = .polled (.waiter g.waiter) .pending ∧
      p' = .release true c g) ∨
    (∃ timed c, p = .release timed c g ∧ d = .unlocked ∧ p' = .park timed c g) ∨
    ∃ timed c, p = .park timed c g ∧ d = .woke g.waiter ∧ p' = .dropRegistration timed c g := by
  have hlive := (code_checks maxInstant p d p' h).live
  rw [hg] at hlive
  cases p with
  | idle | held | heldUnwinding => cases h
  | notify n out => cases n <;> cases h <;> cases hlive
  | register timed c =>
    cases h with
    | register _ g' =>
      cases g' with
      | none => cases hlive
      | some g' =>
        cases hlive
        exact .inl ⟨timed, c, rfl, rfl, rfl⟩
  | pollRegistered c g' =>
    cases h with
    | pollTimer _ _ r =>
      cases hlive
      cases r with
      | pending => exact .inr (.inr (.inl ⟨c, rfl, rfl, rfl⟩))
      | ready r => exact .inr (.inl ⟨c, r, rfl, rfl, rfl⟩)
  | release timed c g' =>
    cases h
    cases hlive
    exact .inr (.inr (.inr (.inl ⟨timed, c, rfl, rfl, rfl⟩)))
  | park timed c g' =>
    cases h
    cases hlive
    exact .inr (.inr (.inr (.inr ⟨timed, c, rfl, rfl, rfl⟩)))
  | _ =>
    cases h
    cases hlive

/-- Only a parked thread wakes. -/
lemma woke_reports {maxInstant : ℕ} {p p' : Pc σ ρ} {a : ℕ}
    (h : (code maxInstant p).Reports (.woke a) p') :
    ∃ timed c g, p = .park timed c g ∧ a = g.waiter := by
  cases p with
  | park timed c g =>
    cases h
    exact ⟨timed, c, g, rfl, rfl⟩
  | notify n out => cases n <;> cases h
  | _ => cases h

/-- A suspension has a registration. -/
lemma reg_of_stage {p : Pc σ ρ} {timed : Bool} {g : Registration} (h : stage p = some (timed, g)) :
    (typ p).reg = some g := by
  cases p <;> cases h <;> rfl

lemma reg_of_asleep {p : Pc σ ρ} {g : Registration} (h : asleep p = some g) :
    (typ p).reg = some g := by
  cases p <;> cases h <;> rfl

lemma reg_of_awake {p : Pc σ ρ} {g : Registration} (h : awake p = some g) :
    (typ p).reg = some g := by
  cases p <;> cases h
  rfl

/-! ## Suspensions in a run -/

variable {Tid : Type}

/-- The waiter whose suspension a report ends. -/
def woken : Did σ ρ → List ℕ
  | .woke a => [a]
  | _ => []

/-- The waiter objects of the suspensions that ended, newest first. -/
def wakes : List (Program.Label σ ρ (Choice σ ρ) Tid) → List ℕ
  | [] => []
  | .did _ d :: tr => woken d ++ wakes tr
  | .chose _ _ :: tr => wakes tr
  | .ambient _ :: tr => wakes tr

/-- The Timer of a thread will wake waiter `a`: the future is pending and has the waker of exactly
this waiter, or the future completed and the wake is in flight. -/
def TimerWill (m : Mem σ Tid) (t : Tid) (a : ℕ) : Prop :=
  (∃ f, m.future t = some f ∧ f.result = none ∧ f.waker = some (.waiter a)) ∨ a ∈ m.inFlight

/-- What is known of the waiter objects of the suspensions. -/
structure Suspensions (tr : List (Program.Label σ ρ (Choice σ ρ) Tid)) (m : Mem σ Tid)
    (pc : Tid → Pc σ ρ) : Prop where
  /-- A Timer has the waker of a waiter exactly if the suspension is timed. -/
  handed : ∀ t timed g, stage (pc t) = some (timed, g) → (g.waiter ∈ m.handed ↔ timed = true)
  /-- The latch of a suspension that ended is set. -/
  awake : ∀ t g, Blocking.awake (pc t) = some g → m.signalled g.waiter = true
  /-- A suspension ends once. -/
  asleep : ∀ t g, Blocking.asleep (pc t) = some g → g.waiter ∉ wakes tr
  wakes_nodup : (wakes tr).Nodup
  wakes_lt : ∀ a ∈ wakes tr, a < m.nextWaiter
  /-- A timed suspension whose latch is unset has a Timer that will wake it. -/
  timer : ∀ t g, stage (pc t) = some (true, g) → m.signalled g.waiter = false →
    TimerWill m t g.waiter

variable [DecidableEq Tid]

section Fires

variable {maxInstant : ℕ} {tr : List (Program.Label σ ρ (Choice σ ρ) Tid)} {m : Mem σ Tid}
  {pc : Tid → Pc σ ρ} {t : Tid} {d : Did σ ρ} {p : Pc σ ρ}

/-- A report of another thread neither polls with the waiter of a suspension nor ends it. -/
lemma other_waiter (hf : (typed maxInstant Tid).Fires m pc t d p) {u : Tid} (hut : u ≠ t)
    {g : Registration} (hu : (typ (pc u)).reg = some g) :
    g.waiter ∉ d.handed ∧ g.waiter ∉ woken d := by
  have hw : (typ (pc u)).waiter = some g.waiter := hf.owned.waiter.waiter_of_reg hu
  have hneeds := hf.step.1
  constructor
  · intro hmem
    cases d with
    | polled w r =>
      cases w with
      | waiter a =>
        obtain rfl : g.waiter = a := by simpa [Did.handed] using hmem
        exact hut (hf.owned.waiter.waiter_inj hw (hneeds.2 _ rfl))
      | _ => simp [Did.handed] at hmem
    | _ => simp [Did.handed] at hmem
  · intro hmem
    cases d with
    | woke a =>
      obtain rfl : g.waiter = a := by simpa [woken] using hmem
      obtain ⟨-, g', hg', heq⟩ := hneeds
      exact hut (hf.owned.waiter.waiter_inj hw (heq ▸ hf.owned.waiter.waiter_of_reg hg'))
    | _ => simp [woken] at hmem

/-- Wakers that a Timer was given after a report. -/
lemma handed_effect : (m.effect t d).handed = d.handed ++ m.handed := by
  rw [m.effect_handed]
  cases d with
  | polled w r => cases w <;> rfl
  | _ => rfl

/-- A report keeps the record of timed suspensions.

**Proof sketch.** For the thread itself by the places of a suspension: a new waiter was given to nobody,
and the poll that comes before a timed sleep gives it to the Timer. Another thread hands over its own
waiter only. -/
lemma Suspensions.handed_did (h : Suspensions tr m pc)
    (hf : (typed maxInstant Tid).Fires m pc t d p) (u : Tid) (timed : Bool) (g : Registration)
    (hu : stage (Function.update pc t p u) = some (timed, g)) :
    g.waiter ∈ (m.effect t d).handed ↔ timed = true := by
  rw [handed_effect, List.mem_append]
  by_cases hut : u = t
  · subst hut
    rw [Function.update_self] at hu
    rcases suspension_reports hf.reports (reg_of_stage hu) with ⟨timed', c, hp, rfl, rfl⟩ |
      ⟨c, r, hp, rfl, rfl⟩ | ⟨c, hp, rfl, rfl⟩ | ⟨timed', c, hp, rfl, rfl⟩ |
      ⟨timed', c, hp, rfl, rfl⟩
    · cases timed' <;> cases hu
      have hnot : g.waiter ∉ m.handed := fun hmem =>
        absurd (hf.owned.waiter.handed_lt hmem) (by rw [hf.allows.2]; exact lt_irrefl _)
      simp [Did.handed, hnot]
    · cases hu
    · cases hu
      simp [Did.handed]
    all_goals
      cases hu
      have hold := h.handed u timed g (by rw [hp]; rfl)
      simpa [Did.handed] using hold
  · rw [Function.update_of_ne hut] at hu
    have hnot := (other_waiter hf hut (reg_of_stage hu)).1
    have hold := h.handed u timed g hu
    simpa [hnot] using hold

/-- A report sets the latch of every suspension that it ends. -/
lemma Suspensions.awake_did (h : Suspensions tr m pc)
    (hf : (typed maxInstant Tid).Fires m pc t d p) (u : Tid) (g : Registration)
    (hu : Blocking.awake (Function.update pc t p u) = some g) :
    (m.effect t d).signalled g.waiter = true := by
  refine Mem.signalled_effect ?_
  by_cases hut : u = t
  · subst hut
    rw [Function.update_self] at hu
    rcases suspension_reports hf.reports (reg_of_awake hu) with ⟨timed, c, hp, rfl, rfl⟩ |
      ⟨c, r, hp, rfl, rfl⟩ | ⟨c, hp, rfl, rfl⟩ | ⟨timed, c, hp, rfl, rfl⟩ |
      ⟨timed, c, hp, rfl, rfl⟩
    · cases timed <;> cases hu
    · cases hu
    · cases hu
    · cases hu
    · exact hf.allows
  · rw [Function.update_of_ne hut] at hu
    exact h.awake u g hu

/-- A report keeps the suspensions that have not ended apart from those that have. -/
lemma Suspensions.asleep_did (h : Suspensions tr m pc)
    (hf : (typed maxInstant Tid).Fires m pc t d p) (u : Tid) (g : Registration)
    (hu : Blocking.asleep (Function.update pc t p u) = some g) :
    g.waiter ∉ wakes (.did t d :: tr) := by
  simp only [wakes, List.mem_append, not_or]
  by_cases hut : u = t
  · subst hut
    rw [Function.update_self] at hu
    rcases suspension_reports hf.reports (reg_of_asleep hu) with ⟨timed, c, hp, rfl, rfl⟩ |
      ⟨c, r, hp, rfl, rfl⟩ | ⟨c, hp, rfl, rfl⟩ | ⟨timed, c, hp, rfl, rfl⟩ |
      ⟨timed, c, hp, rfl, rfl⟩
    · refine ⟨by simp [woken], fun hmem => ?_⟩
      exact absurd (h.wakes_lt _ hmem) (by rw [hf.allows.2]; exact lt_irrefl _)
    · cases hu
    · exact ⟨by simp [woken], h.asleep u g (by rw [hp]; rfl)⟩
    · exact ⟨by simp [woken], h.asleep u g (by rw [hp]; rfl)⟩
    · cases hu
  · rw [Function.update_of_ne hut] at hu
    exact ⟨(other_waiter hf hut (reg_of_asleep hu)).2, h.asleep u g hu⟩

/-- A report ends a suspension for the first time, and its waiter was allocated. -/
lemma Suspensions.wakes_did (h : Suspensions tr m pc)
    (hf : (typed maxInstant Tid).Fires m pc t d p) :
    (wakes (.did t d :: tr)).Nodup ∧ ∀ a ∈ wakes (.did t d :: tr), a < (m.effect t d).nextWaiter := by
  have hle : m.nextWaiter ≤ (m.effect t d).nextWaiter := (next_le hf.owned hf.allows).2
  have hold : ∀ a ∈ wakes tr, a < (m.effect t d).nextWaiter := fun a ha =>
    (h.wakes_lt a ha).trans_le hle
  by_cases hd : ∃ a, d = .woke a
  · obtain ⟨a, rfl⟩ := hd
    obtain ⟨timed, c, g, hp, rfl⟩ := woke_reports hf.reports
    have hlt : g.waiter < m.nextWaiter :=
      hf.owned.waiter.waiter_lt (t := t) (by simp only [hp]; rfl)
    refine ⟨List.nodup_cons.mpr ⟨h.asleep t g (by rw [hp]; rfl), h.wakes_nodup⟩, ?_⟩
    intro a ha
    rcases List.mem_cons.mp ha with rfl | ha
    · exact hlt.trans_le hle
    · exact hold a ha
  · have hnil : wakes (.did t d :: tr) = wakes tr := by
      cases d with
      | woke a => exact absurd ⟨a, rfl⟩ hd
      | _ => rfl
    rw [hnil]
    exact ⟨h.wakes_nodup, hold⟩

/-- **A report keeps a Timer for every timed suspension.** The poll that enters the suspension
leaves the waker of exactly its waiter in the future, and no later primitive touches it before the
suspension ends. -/
lemma Suspensions.timer_did (h : Suspensions tr m pc)
    (hf : (typed maxInstant Tid).Fires m pc t d p) (u : Tid) (g : Registration)
    (hu : stage (Function.update pc t p u) = some (true, g))
    (hset : (m.effect t d).signalled g.waiter = false) : TimerWill (m.effect t d) u g.waiter := by
  have hunset : m.signalled g.waiter = false := by
    by_contra hs
    rw [Mem.signalled_effect (by simpa using hs)] at hset
    cases hset
  by_cases hut : u = t
  · subst hut
    rw [Function.update_self] at hu
    rcases suspension_reports hf.reports (reg_of_stage hu) with ⟨timed, c, hp, rfl, rfl⟩ |
      ⟨c, r, hp, rfl, rfl⟩ | ⟨c, hp, rfl, rfl⟩ | ⟨timed, c, hp, rfl, rfl⟩ |
      ⟨timed, c, hp, rfl, rfl⟩
    · cases timed <;> cases hu
    · cases hu
    · obtain ⟨f, hfut, hpoll⟩ := hf.allows
      have hres : f.result = none := TimerFuture.poll_eq_pending.mp hpoll.symm
      refine .inl ⟨f.polled (.waiter g.waiter), ?_, ?_, TimerFuture.polled_waker hres⟩
      · simp [m.effect_future, hfut]
      · rw [TimerFuture.polled_result, hres]
    · cases hu
      exact h.timer u g (by rw [hp]; rfl) hunset
    · have hlatch : m.signalled g.waiter = true := hf.allows
      rw [hunset] at hlatch
      cases hlatch
  · rw [Function.update_of_ne hut] at hu
    simp only [TimerWill, Mem.effect_future_ne hut, Mem.effect_inFlight]
    exact h.timer u g hu hunset

/-- A report keeps what is known of suspensions. -/
lemma Suspensions.did (h : Suspensions tr m pc) (hf : (typed maxInstant Tid).Fires m pc t d p) :
    Suspensions (.did t d :: tr) (m.effect t d) (Function.update pc t p) where
  handed := h.handed_did hf
  awake := h.awake_did hf
  asleep := h.asleep_did hf
  wakes_nodup := (h.wakes_did hf).1
  wakes_lt := (h.wakes_did hf).2
  timer := h.timer_did hf

/-- **The Timer keeps its promise**: a completion puts the wake of the stored waker in flight, and
only the delivery of a wake takes it out again, setting the latch. -/
lemma Suspensions.timer_timer (h : Suspensions tr m pc) {m' : Mem σ Tid} {e : TimerEvent Tid}
    {b : TimerDid Tid} (he : m.timer e = some (m', b)) {u : Tid} {g : Registration}
    (hu : stage (pc u) = some (true, g)) (hset : m'.signalled g.waiter = false) :
    TimerWill m' u g.waiter := by
  rcases Mem.timer_eq_some he with ⟨d, rfl, -⟩ | ⟨t, f, r, hf, hres, rfl, -⟩ | ⟨a, -, rfl, -⟩ |
    ⟨a, -, rfl, -⟩
  · exact h.timer u g hu hset
  · rcases h.timer u g hu hset with ⟨f', hf', hres', hw⟩ | hfly
    · by_cases hut : u = t
      · subst hut
        obtain rfl : f = f' := Option.some.inj (hf.symm.trans hf')
        refine .inr ?_
        simp [Mem.complete, hw]
      · refine .inl ⟨f', ?_, hres', hw⟩
        simpa only [Mem.complete, Function.update_of_ne hut] using hf'
    · refine .inr ?_
      simp only [Mem.complete]
      split
      · exact List.mem_cons_of_mem _ hfly
      · exact hfly
  · by_cases hga : g.waiter = a
    · simp [hga] at hset
    · dsimp only at hset
      rw [Function.update_of_ne hga] at hset
      refine (h.timer u g hu hset).imp_right fun hfly => ?_
      exact (List.mem_erase_of_ne hga).mpr hfly
  · by_cases hga : g.waiter = a
    · simp [hga] at hset
    · dsimp only at hset
      rw [Function.update_of_ne hga] at hset
      exact h.timer u g hu hset

end Fires

/-- User code is in no suspension. -/
lemma jump_suspension {p p' : Pc σ ρ} {x : Choice σ ρ} (h : jump p x = some p') :
    stage p' = none ∧ Blocking.asleep p' = none ∧ Blocking.awake p' = none := by
  cases p <;> cases x <;> simp only [jump, reduceCtorEq] at h <;> cases h
  case idle.call op => cases op <;> exact ⟨rfl, rfl, rfl⟩
  case held.guard op => cases op <;> exact ⟨rfl, rfl, rfl⟩
  all_goals exact ⟨rfl, rfl, rfl⟩

/-- **What is known of suspensions holds in every run.**

**Proof sketch.** Induction on the run, with one lemma for each kind of step. A call and the user enter
no suspension, and a Timer event sets latches and leaves wakes in flight, which only helps. -/
theorem suspensions (maxInstant : ℕ) {s₀ : Setup σ}
    {tr : List (Program.Label σ ρ (Choice σ ρ) Tid)} {c : Threads.Conf (Mem σ Tid) Tid (Pc σ ρ)}
    (h : (program maxInstant).Run s₀ tr c) : Suspensions tr c.mem c.pc := by
  refine (typed maxInstant Tid).rule (I := Suspensions) ?_ ?_ ?_ ?_ h
  · constructor <;> simp [program, stage, asleep, awake, wakes]
  · intro tr m pc t d p _ hi hf
    exact hi.did hf
  · intro tr m pc t x p _ hi hj
    obtain ⟨h1, h2, h3⟩ := jump_suspension hj
    have hne : ∀ {α : Type} {f : Pc σ ρ → Option α} {u y}, f p = none →
        f (Function.update pc t p u) = some y → f (pc u) = some y := by
      intro α f u y hnone hu
      by_cases hut : u = t
      · subst hut
        rw [Function.update_self, hnone] at hu
        cases hu
      · rwa [Function.update_of_ne hut] at hu
    exact ⟨fun u timed g hu => hi.handed u timed g (hne h1 hu),
      fun u g hu => hi.awake u g (hne h3 hu), fun u g hu => hi.asleep u g (hne h2 hu),
      hi.wakes_nodup, hi.wakes_lt, fun u g hu => hi.timer u g (hne h1 hu)⟩
  · intro tr m pc e m' b _ hi he
    have hfr := Mem.timer_frame he
    refine ⟨?_, fun u g hu => ?_, hi.asleep, hi.wakes_nodup, ?_,
      fun u g hu hset => hi.timer_timer he hu hset⟩
    · rw [hfr.handed]
      exact hi.handed
    · exact Mem.timer_signalled he (hi.awake u g hu)
    · rw [hfr.nextWaiter]
      exact hi.wakes_lt

end QubitLock.Blocking
