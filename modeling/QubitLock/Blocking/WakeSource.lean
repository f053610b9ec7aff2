import QubitLock.Blocking.Suspension

set_option relaxedAutoImplicit false
set_option autoImplicit false

/-!
# A parked timed wait has a wake source

A timed suspension polls one Timer future with three wakers in turn: none before it registers, the
one of its new waiter, and after the wakeup the old waiter's again. While the thread is parked with
its latch unset, the registry or a notification will signal exactly its waiter, and its Timer will
wake exactly its waiter.

## Main definitions

* `Blocking.stepsOf` — the number of primitives that a thread executes in a run.

## Main results

* `Blocking.parked_has_wake_source` — both sources, and that each leads to the latch being set.
-/

namespace QubitLock.Blocking

variable {σ ρ Tid : Type} [DecidableEq Tid]

/-- The number of reports of a thread in a trace. -/
def stepsOf (u : Tid) : List (Program.Label σ ρ (Choice σ ρ) Tid) → ℕ
  | [] => 0
  | .did t _ :: tr => (if t = u then 1 else 0) + stepsOf u tr
  | .chose _ _ :: tr => stepsOf u tr
  | .ambient _ :: tr => stepsOf u tr

/-- A thread that owes signals is signalling. -/
lemma signal_of_sig {p : Pc σ ρ} {a : ℕ} (h : a ∈ (typ p).sig) :
    ∃ b rest out, p = .signal b rest out ∧ (typ p).sig = b :: rest := by
  cases p <;> first | exact ⟨_, _, _, rfl, rfl⟩ | cases h

section Continuation

variable {maxInstant : ℕ} {c c' : Threads.Conf (Mem σ Tid) Tid (Pc σ ρ)}
  {tr : List (Program.Label σ ρ (Choice σ ρ) Tid)}

/-- No step resets a latch. -/
lemma signalled_step {e : Threads.Event Tid (Option TimeError) (Choice σ ρ) (TimerEvent Tid)}
    {l : Program.Label σ ρ (Choice σ ρ) Tid}
    (h : (program maxInstant).threads.step c e = some (c', l)) {a : ℕ}
    (ha : c.mem.signalled a = true) : c'.mem.signalled a = true := by
  rcases Threads.step_eq_some _ h with ⟨t, o, d, p, -, -, rfl, -⟩ | ⟨t, x, p, -, -, rfl, -⟩ |
    ⟨e', m, b, -, he, rfl, -⟩
  · exact Mem.signalled_effect ha
  · exact ha
  · exact Mem.timer_signalled he ha

/-- A delivered wake of the Timer sets the latch for good. -/
lemma signalled_of_timerWoke (h : (program maxInstant).threads.Run c tr c') {a : ℕ}
    (ha : .ambient (.timerWoke a) ∈ tr) : c'.mem.signalled a = true := by
  revert ha
  refine Lts.Run.invariant
    (I := fun tr s => .ambient (.timerWoke a) ∈ tr → s.mem.signalled a = true) ?_ ?_ h
  · exact fun ha => by cases ha
  · intro tr s e s' l _ hi hs ha
    rcases List.mem_cons.mp ha with rfl | ha
    · rcases Threads.step_eq_some _ hs with ⟨t, o, d, p, -, -, -, hl⟩ | ⟨t, x, p, -, -, -, hl⟩ |
        ⟨e', m, b, -, he, rfl, hl⟩
      · cases hl
      · cases hl
      · cases hl
        rcases Mem.timer_eq_some he with ⟨d, -, hb⟩ | ⟨t, f, r, -, -, -, hb⟩ | ⟨a', -, rfl, hb⟩ |
          ⟨a', -, -, hb⟩ <;> cases hb
        exact Function.update_self _ _ _
    · exact signalled_step hs (hi ha)

/-- **A notification signals what it took**: a thread that owes a signal to waiter `a` sets its
latch after as many steps of its own as there are signals before it and one more.

**Proof sketch.** Every step of the thread takes the head of its pending signals, and no other step
changes them, so the number of its steps and the position of `a` add up to at most the position at
the start. -/
lemma signalled_of_steps {u : Tid} {a : ℕ} (ha : a ∈ (typ (c.pc u)).sig)
    (h : (program maxInstant).threads.Run c tr c')
    (hsteps : (typ (c.pc u)).sig.idxOf a < stepsOf u tr) : c'.mem.signalled a = true := by
  have hinv : c'.mem.signalled a = true ∨ (a ∈ (typ (c'.pc u)).sig ∧
      (typ (c'.pc u)).sig.idxOf a + stepsOf u tr ≤ (typ (c.pc u)).sig.idxOf a) := by
    refine Lts.Run.invariant (I := fun tr s => s.mem.signalled a = true ∨
      (a ∈ (typ (s.pc u)).sig ∧
        (typ (s.pc u)).sig.idxOf a + stepsOf u tr ≤ (typ (c.pc u)).sig.idxOf a)) ?_ ?_ h
    · exact .inr ⟨ha, le_rfl⟩
    · intro tr s e s' l _ hi hs
      rcases hi with hi | ⟨hmem, hle⟩
      · exact .inl (signalled_step hs hi)
      obtain ⟨b, rest, out, hp, hsig⟩ := signal_of_sig hmem
      rcases Threads.step_eq_some _ hs with ⟨t, o, d, p, -, hf, rfl, rfl⟩ |
        ⟨t, x, p, -, hj, rfl, rfl⟩ | ⟨e', m, b', -, he, rfl, rfl⟩
      · by_cases htu : t = u
        · subst htu
          have hf : (code maxInstant (s.pc t)).fire s.mem t o = some (d, p) := hf
          rw [hp] at hf
          cases hf
          by_cases hab : a = b
          · subst hab
            exact .inl (Function.update_self _ _ _)
          · rw [hsig] at hmem hle
            have hrest : a ∈ rest := (List.mem_cons.mp hmem).resolve_left hab
            rw [List.idxOf_cons_ne _ (Ne.symm hab)] at hle
            refine .inr ?_
            simp only [Function.update_self, typ_wakeAll, stepsOf, if_true]
            exact ⟨hrest, by omega⟩
        · refine .inr ?_
          simp only [Function.update_of_ne (Ne.symm htu), stepsOf, htu, if_false]
          exact ⟨hmem, by omega⟩
      · refine .inr ?_
        by_cases htu : t = u
        · subst htu
          have hj : jump (s.pc t) x = some p := hj
          rw [hp] at hj
          cases hj
        · simp only [Function.update_of_ne (Ne.symm htu), stepsOf]
          exact ⟨hmem, hle⟩
      · exact .inr ⟨hmem, hle⟩
  rcases hinv with hset | ⟨-, hle⟩
  · exact hset
  · omega

end Continuation

variable {maxInstant : ℕ} {s₀ : Setup σ} {tr : List (Program.Label σ ρ (Choice σ ρ) Tid)}
  {c : Threads.Conf (Mem σ Tid) Tid (Pc σ ρ)}

/-- **A parked timed wait is never left without a wake source.** Let a thread be parked in a timed
suspension with its latch unset. Then (a) its registration is in the registry or a notification
that took it has yet to signal exactly its waiter, and (b) its Timer future is pending with exactly
its waker, or a wake of exactly its waiter is in flight. A completion of the Timer puts that wake in
flight, a wake in flight can be delivered, and from here on the latch is set as soon as the wake is
delivered or the notification has executed its signals up to this one.

**Proof sketch.** (a) is the source of `Owned`: a waiter that somebody is about to signal is the one of
a registration that this thread has taken, and waiter objects are not shared. (b) is what is known of
suspensions: the future was polled with the waker of the waiter before the lock was released, and a
completion since then has left its wake in flight. The rest follows the wake, or the signals that are
due, through the run. -/
theorem parked_has_wake_source (h : (program maxInstant).Run s₀ tr c) {t : Tid}
    {caller : Caller σ ρ} {g : Registration} (hp : c.pc t = .park true caller g)
    (hset : c.mem.signalled g.waiter = false) :
    (g ∈ c.mem.registrations ∨
      ∃ u, g ∈ lastTake tr u ∧ g.waiter ∈ (typ (c.pc u)).sig) ∧
    ((∃ f, c.mem.future t = some f ∧ f.result = none ∧ f.waker = some (.waiter g.waiter)) ∨
      g.waiter ∈ c.mem.inFlight) ∧
    (∀ r m b, c.mem.timer (.complete t r) = some (m, b) → g.waiter ∈ m.inFlight) ∧
    (g.waiter ∈ c.mem.inFlight → ∃ m, c.mem.timer (.wake g.waiter) = some (m, .timerWoke g.waiter)) ∧
    ∀ tr' c', (program maxInstant).threads.Run c tr' c' →
      (.ambient (.timerWoke g.waiter) ∈ tr' ∨ ∃ u, g.waiter ∈ (typ (c.pc u)).sig ∧
        (typ (c.pc u)).sig.idxOf g.waiter < stepsOf u tr') →
      c'.mem.signalled g.waiter = true := by
  have hh := (typed maxInstant Tid).history h
  have hown := (typed maxInstant Tid).owned h
  have hsusp := suspensions maxInstant h
  have hreg : (typ (c.pc t)).reg = some g := by rw [hp]; rfl
  have hstage : stage (c.pc t) = some (true, g) := by rw [hp]; rfl
  refine ⟨?_, hsusp.timer t g hstage hset, ?_, ?_, ?_⟩
  · rcases hown.source t g hreg with hin | ⟨u, hu⟩ | hl
    · exact .inl hin
    · obtain ⟨g', hg', heq⟩ := hh.sig u _ hu
      have hmade := hh.made_of_taken (hh.lastTake_taken u g' hg')
      obtain rfl := hh.eq_of_waiter_eq hmade (hh.made_of_live ((hh.live t).trans hreg)) heq
      exact .inr ⟨u, hg', hu⟩
    · rw [hset] at hl
      cases hl
  · intro r m b he
    rcases hsusp.timer t g hstage hset with ⟨f, hf, hres, hw⟩ | hfly
    · simp only [Mem.timer, hf, hres, Option.isSome_none, Bool.false_eq_true, if_false,
        Option.some.injEq, Prod.mk.injEq] at he
      obtain ⟨rfl, -⟩ := he
      simp [Mem.complete, hw]
    · simp only [Mem.timer] at he
      split at he
      · cases he
      · split at he
        · cases he
        · obtain ⟨rfl, -⟩ : _ ∧ _ := by simpa [eq_comm] using he
          simp only [Mem.complete]
          split
          · exact List.mem_cons_of_mem _ hfly
          · exact hfly
  · intro hfly
    simp only [Mem.timer, hfly, if_true]
    exact ⟨_, rfl⟩
  · rintro tr' c' hrun (hw | ⟨u, hu, hsteps⟩)
    · exact signalled_of_timerWoke hrun hw
    · exact signalled_of_steps hu hrun hsteps

/-- Thread `false` parks in a timed wait; thread `true` selects it and has its signal still to
send. -/
def selectedWhileParked : List (Threads.Event Bool (Option TimeError) (Choice ℕ Unit)
    (TimerEvent Bool)) :=
  [.choose false (.call (.waitWhileFor 10 ⟨fun _ v => some (v == 0), fun v => (v - 1, some ())⟩)),
    .run false none, .run false none, .run false none, .run false none, .run false none,
    .run false none, .run false none, .run false none,
    .choose true (.call .notifyOne), .run true none]

/-- The program counter of a parked timed thread with registration `g`. -/
def parkedTimed (g : Registration) : Pc ℕ Unit → Bool
  | .park true _ g' => g' = g
  | _ => false

theorem parked_has_wake_source_selected :
    ∃ tr, ∃ c : Threads.Conf (Mem ℕ Bool) Bool (Pc ℕ Unit), (program 100).Run ⟨0, 0, true⟩ tr c ∧
      (∃ caller, c.pc false = .park true caller ⟨1, 0⟩) ∧ c.mem.signalled 0 = false ∧
      c.mem.registrations = [] ∧
      ((⟨1, 0⟩ ∈ c.mem.registrations ∨
        ∃ u, ⟨1, 0⟩ ∈ lastTake tr u ∧ 0 ∈ (typ (c.pc u)).sig) ∧
      ((∃ f, c.mem.future false = some f ∧ f.result = none ∧ f.waker = some (.waiter 0)) ∨
        0 ∈ c.mem.inFlight)) := by
  obtain ⟨tr, c, hr, hp, -⟩ := (program 100).threads.exists_run_of_play
    ((program 100).start ⟨0, 0, true⟩) selectedWhileParked
    (p := fun s => parkedTimed ⟨1, 0⟩ (s.1.pc false) = true ∧ s.1.mem.signalled 0 = false ∧
      s.1.mem.registrations = []) (by decide)
  simp only [decide_eq_true_eq] at hp
  obtain ⟨hpark, hset, hregs⟩ := hp
  have hcaller : ∃ caller, c.pc false = .park true caller ⟨1, 0⟩ := by
    revert hpark
    cases c.pc false with
    | park timed caller g =>
      intro hpark
      cases timed with
      | true =>
        obtain rfl : g = ⟨1, 0⟩ := by simpa [parkedTimed] using hpark
        exact ⟨caller, rfl⟩
      | false => cases hpark
    | _ => exact fun hpark => by cases hpark
  obtain ⟨caller, hc⟩ := hcaller
  obtain ⟨ha, hb, -⟩ := parked_has_wake_source hr hc hset
  exact ⟨tr, c, hr, ⟨caller, hc⟩, hset, hregs, ha, hb⟩

end QubitLock.Blocking
