import QubitLock.Monitor.InnerAtomicity
import QubitLock.Monitor.Progress

set_option relaxedAutoImplicit false
set_option autoImplicit false

/-!
# The handshake of `wait` and `signal`

`BlockingConditionWaiter::wait` looks at the flag of the waiter under its mutex and sleeps on its
condition variable, and `signal` sets the flag under the same mutex before it calls `notify_one`. This
file shows that the handshake loses no wakeup, and that the private locks of a monitor are leaves: who
holds one waits for nobody.

That `notify_one` meets the right sleeper needs more than mutual exclusion: a waiter object has one
owner, so at most one thread sleeps on it, and this follows from the typing of the program.

## Main definitions

* `Sleepers` — the agreement on the sleeping threads.
* `InnerPc.togo` — how far a holder is from dropping its lock.

## Main results

* `Program.Typed.sleepers` — a sleeper whose flag is set has a notifier on the way.
* `InnerMem.fire_of_holds` — who holds a private lock can step, and comes nearer to dropping it.
* `Program.Typed.inner_progress` — the private locks cause no deadlock.
-/

namespace QubitLock

variable {σ ρ K Tid Pc Choice : Type}

variable [DecidableEq Tid] {P : Program σ ρ Pc Choice} {blocking : Bool} {m : InnerMem σ Tid} {t : Tid}
  {o : Outside}

/-! ## The sleeping threads -/

/-- The agreement on the sleeping threads: a thread that is about to sleep has not missed the flag, and
a sleeper whose flag is set has a notifier on the way. -/
structure Sleepers (m : InnerMem σ Tid) (pc : Tid → InnerPc Pc) : Prop where
  place : ∀ {a t}, t ∈ m.asleep a → ∃ p, pc t = .blocked p a
  nodup : ∀ a, (m.asleep a).Nodup
  unset : ∀ {t p a}, pc t = .sleep p a → m.mem.signalled a = false
  notifier : ∀ {a}, m.asleep a ≠ [] → m.mem.signalled a = true →
    (∃ u k, pc u = .notify a k) ∨ m.waking a = some .flagged

omit [DecidableEq Tid] in
/-- Waking one of at most one sleeping threads leaves none. -/
lemma wakeOne_eq_nil {l : List Tid} {pick : ℕ} (h : l.length ≤ 1) : wakeOne l pick = [] := by
  match l, h with
  | [], _ => rfl
  | [x], _ => simp [wakeOne, Nat.mod_one]

omit [DecidableEq Tid] in
/-- Only `signal` sets the flag of a waiter. -/
lemma Cmd.eq_signal_of_fire {m : Mem σ Tid} {fault : Option TimeError} {c : Cmd σ ρ K} {a : ℕ} {k : K}
    (h : c.fire m t fault = some (.signalled a, k)) : c = .signal a k := by
  have hr := fire_reports h (by simp)
  cases hr
  rfl

omit [DecidableEq Tid] in
/-- A blocking waiter is signalled under its lock. -/
lemma InnerStep.eq_notify {p p' : InnerPc Pc} {d : InnerDid σ ρ} {a : ℕ}
    (h : InnerStep P true m t o p d p') (hd : d.outer = some (.signalled a)) :
    ∃ k, p' = .notify a k := by
  cases h with
  | plain hp hf | store hp hf =>
    cases hd
    rw [Cmd.eq_signal_of_fire hf] at hp
    cases hp
  | flag =>
    cases hd
    exact ⟨_, rfl⟩
  | _ => cases hd

/-- **A step of a thread keeps the agreement on the sleeping threads** if it adds no sleeper but itself,
sets no flag but as a notifier, and leaves no sleeper behind as a notifier.

**Proof sketch.** A thread that is about to sleep holds the lock of its waiter. If the step of another
thread had set the flag, that thread would be a notifier now and would hold the same lock. A sleeper
whose flag was set before keeps its notifier, who stays where it is unless it is the thread that moves,
and that one leaves no sleeper behind. -/
lemma Sleepers.move {pc : Tid → InnerPc Pc} {m' : InnerMem σ Tid} {p : InnerPc Pc} (h : Sleepers m pc)
    (hlocks : LocksHeld P true m' (Function.update pc t p)) (hnodup : ∀ a, (m'.asleep a).Nodup)
    (hplace : ∀ a u, u ∈ m'.asleep a → u ≠ t ∧ u ∈ m.asleep a ∨ u = t ∧ ∃ q, p = .blocked q a)
    (hold : ∀ a, m'.asleep a ≠ [] → m'.mem.signalled a = true → m.asleep a ≠ [])
    (hnotify : ∀ a k, pc t = .notify a k → m'.asleep a = []) (hwaking : m'.waking = m.waking)
    (hset : ∀ a, m'.mem.signalled a = true → m.mem.signalled a = true ∨ ∃ k, p = .notify a k)
    (hunset : ∀ q a, p = .sleep q a → m'.mem.signalled a = false) :
    Sleepers m' (Function.update pc t p) := by
  refine ⟨?_, hnodup, ?_, ?_⟩
  · intro a u hu
    rcases hplace a u hu with ⟨hut, hmem⟩ | ⟨rfl, q, rfl⟩
    · obtain ⟨q, hq⟩ := h.place hmem
      exact ⟨q, by rw [Function.update_of_ne hut, hq]⟩
    · exact ⟨q, Function.update_self _ _ _⟩
  · intro u q a hu
    by_cases hut : u = t
    · subst hut
      rw [Function.update_self] at hu
      exact hunset q a hu
    · have hsleep : pc u = .sleep q a := by rwa [Function.update_of_ne hut] at hu
      by_contra hne
      rcases hset a (by simpa using hne) with hbefore | ⟨k, rfl⟩
      · rw [h.unset hsleep] at hbefore
        cases hbefore
      · -- the flag was set by a thread that holds the lock of the waiter
        refine hut (hlocks.holds_inj (l := .latch a) (by rw [hu]; rfl) ?_)
        rw [Function.update_self]
        rfl
  · intro a hne hsig
    rw [hwaking]
    rcases hset a hsig with hbefore | ⟨k, rfl⟩
    · rcases h.notifier (hold a hne hsig) hbefore with ⟨u, k, hu⟩ | hw
      · have hut : u ≠ t := by
          rintro rfl
          exact hne (hnotify a k hu)
        exact .inl ⟨u, k, by rw [Function.update_of_ne hut, hu]⟩
      · exact .inr hw
    · exact .inl ⟨t, k, Function.update_self _ _ _⟩

/-- Only a report of `signal` sets the flag of a waiter. -/
lemma InnerMem.signalled_of_effect {d : InnerDid σ ρ} {a : ℕ}
    (h : (m.effect t d).mem.signalled a = true) :
    m.mem.signalled a = true ∨ d.outer = some (.signalled a) := by
  cases d with
  | did d | stored _ d =>
    have hset : (Mem.effect _ t d).signalled a = true := h
    rw [Mem.effect_signalled] at hset
    split at hset
    · rename_i b
      by_cases hab : a = b
      · exact .inr (by rw [hab]; rfl)
      · rw [Function.update_of_ne hab] at hset
        exact .inl hset
    · exact .inl hset
  | _ => exact .inl h

/-- A flag that is set after a step was set before, or the thread is now a notifier. -/
lemma InnerStep.signalled {p p' : InnerPc Pc} {d : InnerDid σ ρ} (h : InnerStep P true m t o p d p')
    {a : ℕ} (ha : (m.effect t d).mem.signalled a = true) :
    m.mem.signalled a = true ∨ ∃ k, p' = .notify a k :=
  (InnerMem.signalled_of_effect ha).imp_right h.eq_notify

/-- A step of a thread keeps the agreement on the sleeping threads.

**Proof sketch.** By the step. Only three kinds of steps change the sleepers. A thread that goes to
sleep has not missed its flag; one that awakes leaves the sleepers; and a notifier leaves nobody asleep,
as there was one sleeper at most. -/
lemma Sleepers.did {pc : Tid → InnerPc Pc} {d : InnerDid σ ρ} {p : InnerPc Pc} (h : Sleepers m pc)
    (hone : ∀ a, (m.asleep a).length ≤ 1)
    (hlocks : LocksHeld P true (m.effect t d) (Function.update pc t p))
    (hs : InnerStep P true m t o (pc t) d p) : Sleepers (m.effect t d) (Function.update pc t p) := by
  have hset := fun a => hs.signalled (a := a)
  -- a thread that is not inside `Condvar::wait` is nobody's sleeper
  have hawake : (∀ q a, pc t ≠ .blocked q a) → ∀ a, t ∉ m.asleep a := by
    intro hne a hmem
    obtain ⟨q, hq⟩ := h.place hmem
    exact hne q a hq
  -- nor does it sleep after a step that leaves the sleepers alone
  have hstay : (∀ q a, pc t ≠ .blocked q a) → ∀ a u, u ∈ m.asleep a →
      u ≠ t ∧ u ∈ m.asleep a ∨ u = t ∧ ∃ q, p = .blocked q a := by
    intro hne a u hu
    refine .inl ⟨?_, hu⟩
    rintro rfl
    exact hawake hne a hu
  generalize hq : pc t = q at hs hawake hstay
  cases hs with
  | plain | acquire | load | store | woke | flag | relock | unlock =>
    exact h.move hlocks h.nodup (hstay (by simp)) (fun _ hne _ => hne) (by simp [hq]) rfl hset (by simp)
  | found hcode hunset =>
    refine h.move hlocks h.nodup (hstay (by simp)) (fun _ hne _ => hne) (by simp [hq]) rfl hset ?_
    rintro q a ⟨⟩
    exact hunset
  | @sleep q a =>
    have hnot : t ∉ m.asleep a := hawake (by simp) a
    refine h.move hlocks (fun a' => ?_) (fun a' u hu => ?_) (fun a' hne hsig => ?_) (by simp [hq]) rfl
      hset (by simp)
    · by_cases ha : a' = a
      · subst ha
        simpa [InnerMem.effect] using ⟨hnot, h.nodup a'⟩
      · simpa [InnerMem.effect, ha] using h.nodup a'
    · by_cases ha : a' = a
      · subst ha
        simp only [InnerMem.effect, Function.update_self, List.mem_cons] at hu
        rcases hu with rfl | hu
        · exact .inr ⟨rfl, q, rfl⟩
        · exact .inl ⟨fun hut => hnot (hut ▸ hu), hu⟩
      · simp only [InnerMem.effect, Function.update_of_ne ha] at hu
        exact .inl ⟨fun hut => hawake (by simp) a' (hut ▸ hu), hu⟩
    · by_cases ha : a' = a
      · -- the thread has not missed the flag
        subst ha
        have hfalse : (m.effect t (.slept a' : InnerDid σ ρ)).mem.signalled a' = false := h.unset hq
        rw [hfalse] at hsig
        cases hsig
      · simpa [InnerMem.effect, ha] using hne
  | @awake q a =>
    have hsub : ∀ a', ((m.effect t (.awoke a : InnerDid σ ρ)).asleep a').Sublist (m.asleep a') := by
      intro a'
      by_cases ha : a' = a
      · subst ha
        simp [InnerMem.effect]
      · simp [InnerMem.effect, ha]
    refine h.move hlocks (fun a' => (h.nodup a').sublist (hsub a')) (fun a' u hu => .inl ⟨?_, ?_⟩)
      (fun a' hne _ hnil => ?_) (by simp [hq]) rfl hset (by simp)
    · rintro rfl
      obtain ⟨q', hq'⟩ := h.place ((hsub a').subset hu)
      rw [hq] at hq'
      cases hq'
      simp [InnerMem.effect] at hu
    · exact (hsub a').subset hu
    · exact hne (List.sublist_nil.mp (hnil ▸ hsub a'))
  | @notify k a =>
    have hnil : (m.effect t (.notified a o.pick : InnerDid σ ρ)).asleep a = [] := by
      simp only [InnerMem.effect, Function.update_self]
      exact wakeOne_eq_nil (hone a)
    have hother : ∀ a' ≠ a, (m.effect t (.notified a o.pick : InnerDid σ ρ)).asleep a' = m.asleep a' :=
      fun a' ha => Function.update_of_ne ha _ _
    refine h.move hlocks (fun a' => ?_) (fun a' u hu => ?_) (fun a' hne _ => ?_) (fun a' k' hk => ?_) rfl
      hset (by simp)
    · by_cases ha : a' = a
      · rw [ha, hnil]
        exact List.nodup_nil
      · rw [hother a' ha]
        exact h.nodup a'
    · by_cases ha : a' = a
      · rw [ha, hnil] at hu
        cases hu
      · rw [hother a' ha] at hu
        exact hstay (by simp) a' u hu
    · by_cases ha : a' = a
      · exact absurd (ha ▸ hnil) hne
      · rwa [hother a' ha] at hne
    · rw [hq] at hk
      cases hk
      exact hnil

/-- What the Timer does when it wakes the waker of a waiter. -/
lemma InnerMem.timer_wakeEvent_eq {m n : Mem σ Tid} {a : ℕ} {spurious : Bool} {b : TimerDid Tid}
    (h : m.timer (wakeEvent a spurious) = some (n, b)) :
    n.signalled = Function.update m.signalled a true ∧ n.handed = m.handed ∧
      n.inFlight = if spurious then m.inFlight else m.inFlight.erase a := by
  cases spurious
  all_goals
    simp only [wakeEvent, Mem.timer] at h
    simp only [if_true, Bool.false_eq_true, if_false, Option.ite_none_right_eq_some, Option.some.injEq,
      Prod.mk.injEq] at h
    obtain ⟨-, rfl, -⟩ := h
    exact ⟨rfl, rfl, rfl⟩

/-- A step of the Timer keeps the agreement on the sleeping threads.

**Proof sketch.** By the event. The Timer sets a flag while it holds the lock of the waiter, so nobody
is about to sleep on it, and it is the notifier of a sleeper until it has called `notify_one`. -/
lemma Sleepers.ambient {pc : Tid → InnerPc Pc} {m' : InnerMem σ Tid} {e : InnerEvent Tid}
    {b : Option (TimerDid Tid)} (h : Sleepers m pc) (hone : ∀ a, (m.asleep a).length ≤ 1)
    (hlocks : LocksHeld P true m pc) (he : m.ambient e = some (m', b)) : Sleepers m' pc := by
  cases e with
  | tick d =>
    simp only [InnerMem.ambient, Mem.timer, Option.map_some] at he
    cases he
    exact ⟨h.place, h.nodup, h.unset, h.notifier⟩
  | complete t r =>
    simp only [InnerMem.ambient, Option.map_eq_some_iff, Prod.mk.injEq] at he
    obtain ⟨⟨n, b'⟩, hn, rfl, rfl⟩ := he
    have hsig : n.signalled = m.mem.signalled := by
      simp only [Mem.timer] at hn
      split at hn
      · cases hn
      · split at hn
        · cases hn
        · cases hn
          rfl
    refine ⟨h.place, h.nodup, fun ht => ?_, fun hne ha => ?_⟩
    · simpa only [hsig] using h.unset ht
    · exact h.notifier hne (by simpa only [hsig] using ha)
  | wake a spurious =>
    simp only [InnerMem.ambient] at he
    split at he
    · rename_i hfree
      cases he
      have hnone : m.waking a = none := by
        have := (hlocks.timer a).not
        simp_all
      refine ⟨h.place, h.nodup, h.unset, fun {a'} hne ha => ?_⟩
      rcases h.notifier hne ha with hu | hw
      · exact .inl hu
      · have hne' : a' ≠ a := by
          rintro rfl
          rw [hnone] at hw
          cases hw
        exact .inr (by rw [← hw]; exact Function.update_of_ne hne' _ _)
    · cases he
  | signal a pick =>
    simp only [InnerMem.ambient] at he
    split at he
    · cases he
    · rename_i spurious hw
      simp only [Option.map_eq_some_iff, Prod.mk.injEq] at he
      obtain ⟨⟨n, b'⟩, hn, rfl, rfl⟩ := he
      have hsig := (InnerMem.timer_wakeEvent_eq hn).1
      refine ⟨h.place, h.nodup, fun {t q a'} ht => ?_, fun {a'} hne ha => ?_⟩
      · -- the Timer holds the lock of the waiter, so nobody is about to sleep on it
        have hne : a' ≠ a := by
          rintro rfl
          have hnone : m.waking a' = none := hlocks.waking_eq_none (t := t) (by rw [ht]; rfl)
          rw [hnone] at hw
          cases hw
        show n.signalled a' = false
        rw [hsig, Function.update_of_ne hne]
        exact h.unset ht
      · by_cases ha' : a' = a
        · exact .inr (by rw [ha']; exact Function.update_self _ _ _)
        · have hbefore : m.mem.signalled a' = true := by
            have ha : n.signalled a' = true := ha
            rwa [hsig, Function.update_of_ne ha'] at ha
          rcases h.notifier hne hbefore with hu | hw'
          · exact .inl hu
          · exact .inr (by rw [← hw']; exact Function.update_of_ne ha' _ _)
    · rename_i hw
      cases he
      have hnil : wakeOne (m.asleep a) pick = [] := wakeOne_eq_nil (hone a)
      have hother : ∀ a' ≠ a, Function.update m.asleep a (wakeOne (m.asleep a) pick) a' = m.asleep a' :=
        fun a' ha => Function.update_of_ne ha _ _
      refine ⟨fun {a' t} ht => ?_, fun a' => ?_, h.unset, fun {a'} hne ha => ?_⟩
      all_goals by_cases ha' : a' = a
      · simp [ha', hnil] at ht
      · exact h.place (by simpa only [hother a' ha'] using ht)
      · simp [ha', hnil]
      · simpa only [hother a' ha'] using h.nodup a'
      · simp [ha', hnil] at hne
      · rcases h.notifier (by simpa only [hother a' ha'] using hne) ha with hu | hw'
        · exact .inl hu
        · exact .inr (by rw [← hw']; exact Function.update_of_ne ha' _ _)
    · rename_i hw
      cases he
      refine ⟨h.place, h.nodup, h.unset, fun {a'} hne ha => ?_⟩
      rcases h.notifier hne ha with hu | hw'
      · exact .inl hu
      · have hne' : a' ≠ a := by
          rintro rfl
          rw [hw] at hw'
          cases hw'
        exact .inr (by rw [← hw']; exact Function.update_of_ne hne' _ _)

/-- A thread that waits on a waiter object owns it. -/
lemma Program.Typed.waiter_of_park (T : P.Typed Tid) {m : Mem σ Tid} {pc : Tid → Pc} {a : ℕ} {k : Pc}
    (h : Owned m fun u => T.typ (pc u)) (hp : P.code (pc t) = .park a k) :
    (T.typ (pc t)).waiter = some a := by
  obtain ⟨-, g, hg, rfl⟩ := T.registered_of_park h hp
  exact h.waiter.waiter_of_reg hg

/-- At most one thread waits on a waiter object. -/
lemma Program.Typed.park_inj (T : P.Typed Tid) {m : Mem σ Tid} {pc : Tid → Pc} {u : Tid} {a : ℕ}
    {k k' : Pc} (h : Owned m fun u => T.typ (pc u)) (ht : P.code (pc t) = .park a k)
    (hu : P.code (pc u) = .park a k') : t = u :=
  h.waiter.waiter_inj (T.waiter_of_park h ht) (T.waiter_of_park h hu)

/-- At most one thread sleeps on a waiter.

**Proof sketch.** A sleeper is at a suspension on the waiter, and the waiter object belongs to one
thread (`Owned`), so any two sleepers are the same thread. No thread is in the list twice. -/
lemma Program.Typed.asleep_length (T : P.Typed Tid) {s₀ : Setup σ}
    {tr : List (Program.InnerLabel σ ρ Choice Tid)} {c : Threads.Conf (InnerMem σ Tid) Tid (InnerPc Pc)}
    (h : P.InnerRun true s₀ tr c) (hs : Sleepers c.mem c.pc) (a : ℕ) :
    (c.mem.asleep a).length ≤ 1 := by
  have howned := T.owned (Program.inner_refines h)
  have hpark : ∀ {u}, u ∈ c.mem.asleep a → ∃ k, P.code ((outerConf c).pc u) = .park a k := by
    intro u hu
    obtain ⟨p, hp⟩ := hs.place hu
    have hplaced := (Program.locks_held h).placed u
    rw [hp] at hplaced
    obtain ⟨k, hk⟩ := hplaced.2
    refine ⟨k, ?_⟩
    show P.code (c.pc u).outer = _
    rw [hp]
    exact hk
  have heq : ∀ u ∈ c.mem.asleep a, ∀ v ∈ c.mem.asleep a, u = v := by
    intro u hu v hv
    obtain ⟨k, hk⟩ := hpark hu
    obtain ⟨k', hk'⟩ := hpark hv
    exact T.park_inj howned hk hk'
  match hl : c.mem.asleep a with
  | [] => simp
  | [u] => simp
  | u :: v :: l =>
    have huv : u = v := heq u (by simp [hl]) v (by simp [hl])
    have hnodup := hs.nodup a
    rw [hl, huv] at hnodup
    simp at hnodup

/-- **No wakeup is lost**: in every run of a typed program with blocking waiters the sleeping threads
are inside `Condvar::wait`, and one whose flag is set has a notifier on the way.

**Proof sketch.** Every step keeps the agreement, by the holders of the private locks in the same run
(`Program.locks_held`). `notify_one` leaves nobody asleep whichever thread it picks, because at most one
thread sleeps on a waiter: a sleeper waits on a waiter object that it owns in the run without the
private locks, and there the owner is unique. -/
theorem Program.Typed.sleepers (T : P.Typed Tid) {s₀ : Setup σ}
    {tr : List (Program.InnerLabel σ ρ Choice Tid)} {c : Threads.Conf (InnerMem σ Tid) Tid (InnerPc Pc)}
    (h : P.InnerRun true s₀ tr c) : Sleepers c.mem c.pc := by
  refine Threads.Run.rule (I := fun _ m pc => Sleepers m pc) (P.innerThreads true) ?_ ?_ ?_ ?_ h
  · exact ⟨by simp [innerStart], by simp [innerStart], by simp [innerStart], by simp [innerStart]⟩
  · intro tr m pc t o d p hr hi hf
    have hlocks := Program.locks_held hr
    have hs := InnerMem.step_of_fire (hlocks.placed t) hf
    exact hi.did (T.asleep_length hr hi) (hlocks.did hs) hs
  · intro tr m pc t x p hr hi hj
    generalize hq : pc t = q at hj
    cases q with
    | run q =>
      simp only [innerThreads, Option.map_eq_some_iff] at hj
      obtain ⟨q', -, rfl⟩ := hj
      have hbefore : LocksHeld P true m pc := Program.locks_held hr
      have hlocks : LocksHeld P true m (Function.update pc t (.run q')) :=
        hbefore.keep trivial (by rw [hq]; rfl) rfl rfl
      refine hi.move hlocks hi.nodup (fun a u hu => .inl ⟨?_, hu⟩) (fun _ hne _ => hne) (by simp [hq])
        rfl (fun _ ha => .inl ha) (by simp)
      rintro rfl
      obtain ⟨q'', hq''⟩ := hi.place hu
      rw [hq] at hq''
      cases hq''
    | _ => cases hj
  · intro tr m pc e m' b hr hi he
    exact hi.ambient (T.asleep_length hr hi) (Program.locks_held hr) he

/-! ## The private locks are leaves -/

/-- How far a holder of a private lock is from dropping it. -/
def InnerPc.togo : InnerPc Pc → ℕ
  | .locked _ => 3
  | .loaded _ _ | .notify _ _ => 2
  | .sleep _ _ | .unlock _ _ => 1
  | _ => 0

/-- How far the Timer is from the end of `signal`. -/
def Waking.togo : Option Waking → ℕ
  | some (.locked _) => 3
  | some .flagged => 2
  | some .notified => 1
  | none => 0

omit [DecidableEq Tid] in
/-- A primitive on the registry waits for nobody. -/
lemma Cmd.fire_of_registry {m : Mem σ Tid} {fault : Option TimeError} {c : Cmd σ ρ K}
    (hc : c.inner blocking = some .registry) : ∃ d k, c.fire m t fault = some (d, k) := by
  cases c with
  | register k =>
    simp only [fire]
    split
    · exact ⟨_, _, rfl⟩
    · exact ⟨_, _, rfl⟩
  | unregister | takeOne | takeAll => exact ⟨_, _, rfl⟩
  | park | signal => simp [inner] at hc
  | _ => cases hc

/-- **Who holds a private lock waits for nobody**: its next step is possible whatever the outside world
decides, and brings it nearer to dropping the lock. -/
lemma InnerMem.fire_of_holds {p : InnerPc Pc} {l : InnerLock} (hp : p.Placed P blocking)
    (hl : p.holds P blocking = some l) :
    ∃ d p', m.fire P blocking t o p = some (d, p') ∧ p'.togo < p.togo := by
  cases p with
  | run | blocked | relock => cases hl
  | locked p =>
    rcases Cmd.inner_cases hl with ⟨rfl, hpark, hsignal⟩ | ⟨a, rfl, -, ⟨k, hk⟩ | ⟨k, hk⟩⟩
    · exact ⟨.loaded, .loaded p m.mem.registry, by simp [fire], by simp [InnerPc.togo]⟩
    · by_cases hset : m.mem.signalled a = true
      · exact ⟨.did (.woke a), .unlock (.latch a) k, by simp [fire, hk, hset], by simp [InnerPc.togo]⟩
      · exact ⟨.found a, .sleep p a, by simp [fire, hk, hset], by simp [InnerPc.togo]⟩
    · exact ⟨.did (.signalled a), .notify a k, by simp [fire, hk], by simp [InnerPc.togo]⟩
  | loaded p r =>
    have hfire : ∃ d k, (P.code p).fire { m.mem with registry := r } t o.fault = some (d, k) :=
      Cmd.fire_of_registry hp
    obtain ⟨d, k, hf⟩ := hfire
    exact ⟨.stored r d, .unlock .registry k, by simp [fire, hf], by simp [InnerPc.togo]⟩
  | sleep p a => exact ⟨.slept a, .blocked p a, rfl, by simp [InnerPc.togo]⟩
  | notify a k => exact ⟨.notified a o.pick, .unlock (.latch a) k, rfl, by simp [InnerPc.togo]⟩
  | unlock l k => exact ⟨.unlocked l, .run k, rfl, by simp [InnerPc.togo]⟩

/-- The Timer can wake a waker that it was given, or that a future has left in flight. -/
lemma InnerMem.timer_wakeEvent {m : Mem σ Tid} {a : ℕ} {spurious : Bool} :
    (m.timer (wakeEvent a spurious)).isSome ↔ if spurious then a ∈ m.handed else a ∈ m.inFlight := by
  cases spurious
  all_goals
    simp only [wakeEvent, Mem.timer]
    simp

/-- What the Timer is about to wake for a reason is in flight, and else it was given the waker. -/
def WakesGiven (m : InnerMem σ Tid) : Prop :=
  ∀ a spurious, m.waking a = some (.locked spurious) →
    if spurious then a ∈ m.mem.handed else a ∈ m.mem.inFlight

omit [DecidableEq Tid] in
/-- More wakers given and in flight. -/
lemma WakesGiven.mono {m' : InnerMem σ Tid} (h : WakesGiven m)
    (hwaking : ∀ a spurious, m'.waking a = some (.locked spurious) →
      m.waking a = some (.locked spurious))
    (hhanded : ∀ a ∈ m.mem.handed, a ∈ m'.mem.handed)
    (hflight : ∀ a, (m'.waking a).isSome → a ∈ m.mem.inFlight → a ∈ m'.mem.inFlight) :
    WakesGiven m' := by
  intro a spurious hw
  have hgiven := h a spurious (hwaking a spurious hw)
  cases spurious with
  | true => exact hhanded a hgiven
  | false => exact hflight a (by rw [hw]; rfl) hgiven

/-- A step of a thread takes no waker from the Timer. -/
lemma WakesGiven.did {d : InnerDid σ ρ} (h : WakesGiven m) : WakesGiven (m.effect t d) := by
  refine h.mono (fun a s hw => ?_) (fun a ha => ?_) (fun a _ ha => ?_)
  · cases d <;> exact hw
  · cases d with
    | did d | stored _ d =>
      show a ∈ (Mem.effect _ t d).handed
      rw [Mem.effect_handed]
      split
      · exact List.mem_cons_of_mem _ ha
      · exact ha
    | _ => exact ha
  · cases d with
    | did d | stored _ d =>
      show a ∈ (Mem.effect _ t d).inFlight
      rwa [Mem.effect_inFlight]
    | _ => exact ha

/-- The Timer wakes only what it has.

**Proof sketch.** By the event. The Timer begins to signal a waiter only if it has the waker. A wake is
no longer in flight after the step that sets the flag, and then the Timer is no longer about to set the
flag of that waiter. -/
lemma WakesGiven.ambient {m' : InnerMem σ Tid} {e : InnerEvent Tid} {b : Option (TimerDid Tid)}
    (h : WakesGiven m) (he : m.ambient e = some (m', b)) : WakesGiven m' := by
  cases e with
  | tick d =>
    simp only [InnerMem.ambient, Mem.timer, Option.map_some] at he
    cases he
    exact h
  | complete t r =>
    simp only [InnerMem.ambient, Option.map_eq_some_iff, Prod.mk.injEq] at he
    obtain ⟨⟨n, b'⟩, hn, rfl, rfl⟩ := he
    refine h.mono (fun _ _ hw => hw) (fun a ha => (Mem.timer_frame hn).handed ▸ ha) fun a _ ha => ?_
    simp only [Mem.timer] at hn
    split at hn
    · cases hn
    · rename_i f _
      split at hn
      · cases hn
      · cases hn
        simp only [Mem.complete]
        split
        · exact List.mem_cons_of_mem _ ha
        · exact ha
  | wake a spurious =>
    simp only [InnerMem.ambient] at he
    split at he
    · rename_i hfree
      cases he
      intro a' s hw
      by_cases ha : a' = a
      · subst ha
        obtain rfl : spurious = s := by simpa using hw
        rw [Bool.and_eq_true] at hfree
        exact InnerMem.timer_wakeEvent.mp hfree.2
      · exact h a' s (by simpa [ha] using hw)
    · cases he
  | signal a pick =>
    simp only [InnerMem.ambient] at he
    split at he
    · cases he
    · rename_i spurious hw
      simp only [Option.map_eq_some_iff, Prod.mk.injEq] at he
      obtain ⟨⟨n, b'⟩, hn, rfl, rfl⟩ := he
      obtain ⟨-, hhanded, hflight⟩ := InnerMem.timer_wakeEvent_eq hn
      have hne : ∀ a' s, Function.update m.waking a (some .flagged) a' = some (Waking.locked s) →
          a' ≠ a := by
        rintro a' s hw' rfl
        simp at hw'
      intro a' s hw'
      have hgiven := h a' s (by simpa [hne a' s hw'] using hw')
      show if s then a' ∈ n.handed else a' ∈ n.inFlight
      rw [hhanded, hflight]
      cases s with
      | true => exact hgiven
      | false =>
        -- only the wake of `a` is no longer in flight
        cases spurious with
        | true => exact hgiven
        | false => exact (List.mem_erase_of_ne (hne a' _ hw')).mpr hgiven
    · rename_i hw
      cases he
      refine h.mono (fun a' s hw' => ?_) (fun _ ha => ha) fun _ _ ha => ha
      by_cases ha : a' = a
      · simp [ha] at hw'
      · simpa [ha] using hw'
    · rename_i hw
      cases he
      refine h.mono (fun a' s hw' => ?_) (fun _ ha => ha) fun _ _ ha => ha
      by_cases ha : a' = a
      · simp [ha] at hw'
      · simpa [ha] using hw'

/-- The Timer wakes what it has, in every run. -/
lemma Program.wakes_given {s₀ : Setup σ} {tr : List (Program.InnerLabel σ ρ Choice Tid)}
    {c : Threads.Conf (InnerMem σ Tid) Tid (InnerPc Pc)} (h : P.InnerRun blocking s₀ tr c) :
    WakesGiven c.mem := by
  refine Threads.Run.rule (I := fun _ m _ => WakesGiven m) (P.innerThreads blocking) ?_ ?_ ?_ ?_ h
  · intro a s hw
    cases hw
  · intro tr m pc t o d p _ hi _
    exact hi.did
  · intro tr m pc t x p _ hi _
    exact hi
  · intro tr m pc e m' b _ hi he
    exact hi.ambient he

/-- The Timer in `signal` waits for nobody, and comes nearer to the end of it. -/
lemma WakesGiven.signal {a : ℕ} (h : WakesGiven m) (ha : (m.waking a).isSome) (pick : ℕ) :
    ∃ m' b, m.ambient (.signal a pick) = some (m', b) ∧
      Waking.togo (m'.waking a) < Waking.togo (m.waking a) := by
  simp only [InnerMem.ambient]
  rcases hw : m.waking a with _ | _ | _ | _
  · simp [hw] at ha
  · rename_i s
    have hsome := InnerMem.timer_wakeEvent.mpr (h a s hw)
    obtain ⟨⟨n, b'⟩, hn⟩ := Option.isSome_iff_exists.mp hsome
    simp only [hn, Option.map_some]
    exact ⟨_, _, rfl, by simp [Waking.togo]⟩
  · exact ⟨_, _, rfl, by simp [Waking.togo]⟩
  · exact ⟨_, _, rfl, by simp [Waking.togo]⟩

/-- The holder of a private lock can step. -/
def HolderSteps (P : Program σ ρ Pc Choice) (blocking : Bool) (m : InnerMem σ Tid)
    (pc : Tid → InnerPc Pc) : Prop :=
  (∃ u l, (pc u).holds P blocking = some l ∧ ∀ o, (m.fire P blocking u o (pc u)).isSome) ∨
    ∃ a, (m.waking a).isSome ∧ ∀ pick, (m.ambient (.signal a pick)).isSome

/-- A private lock that is not free has a holder that can step. -/
lemma LocksHeld.holder_steps {pc : Tid → InnerPc Pc} {l : InnerLock} (h : LocksHeld P blocking m pc)
    (hw : WakesGiven m) (hl : m.holder l ≠ none) : HolderSteps P blocking m pc := by
  match hx : m.holder l with
  | none => exact absurd hx hl
  | some (.thread u) =>
    have hu := (h.thread l u).mp hx
    refine .inl ⟨u, l, hu, fun o => ?_⟩
    obtain ⟨d, p, hf, -⟩ := InnerMem.fire_of_holds (m := m) (t := u) (o := o) (h.placed u) hu
    rw [hf]
    rfl
  | some .timer =>
    cases l with
    | registry => exact absurd hx h.registry
    | latch a =>
      have ha := (h.timer a).mp hx
      refine .inr ⟨a, ha, fun pick => ?_⟩
      obtain ⟨m', b, he, -⟩ := hw.signal ha pick
      rw [he]
      rfl

/-- **The private locks cause no deadlock**: in every run, if a thread could execute its primitive at
once were there no private locks, then with them it can step, or the holder of a private lock can.

**Proof sketch.** By the place of the thread. Who holds a private lock can step, and who wants one finds
it free or finds a holder that can step. A thread inside `Condvar::wait` could execute its primitive, so
the flag of its waiter is set; then it is awake, or its notifier holds the lock of the waiter. -/
theorem Program.Typed.inner_progress (T : P.Typed Tid) {s₀ : Setup σ}
    {tr : List (Program.InnerLabel σ ρ Choice Tid)} {c : Threads.Conf (InnerMem σ Tid) Tid (InnerPc Pc)}
    (h : P.InnerRun blocking s₀ tr c) {fault : Option TimeError}
    (hf : ((P.code (c.pc t).outer).fire c.mem.mem t fault).isSome) :
    (∃ o, (c.mem.fire P blocking t o (c.pc t)).isSome) ∨ HolderSteps P blocking c.mem c.pc := by
  have hlocks := Program.locks_held h
  have hwakes := Program.wakes_given h
  have hplaced := hlocks.placed t
  -- a holder can step whatever the outside world decides
  have hholder : ∀ {l}, (c.pc t).holds P blocking = some l →
      ∃ o, (c.mem.fire P blocking t o (c.pc t)).isSome := by
    intro l hl
    refine ⟨⟨none, false, 0⟩, ?_⟩
    obtain ⟨d, p, hfire, -⟩ := InnerMem.fire_of_holds (m := c.mem) (t := t) (o := ⟨none, false, 0⟩)
      hplaced hl
    rw [hfire]
    rfl
  match hq : c.pc t with
  | .run p =>
    rw [hq] at hf
    match hl : (P.code p).inner blocking with
    | none =>
      refine .inl ⟨⟨fault, false, 0⟩, ?_⟩
      simpa [InnerMem.fire, hl, InnerPc.outer] using hf
    | some l =>
      by_cases hfree : c.mem.holder l = none
      · refine .inl ⟨⟨none, false, 0⟩, ?_⟩
        simp [InnerMem.fire, hl, hfree]
      · exact .inr (hlocks.holder_steps hwakes hfree)
  | .locked p =>
    rw [hq] at hplaced
    obtain ⟨l, hl⟩ := Option.isSome_iff_exists.mp hplaced
    exact .inl (hq ▸ hholder (by rw [hq]; exact hl))
  | .loaded p r => exact .inl (hq ▸ hholder (l := .registry) (by rw [hq]; rfl))
  | .sleep p a => exact .inl (hq ▸ hholder (l := .latch a) (by rw [hq]; rfl))
  | .notify a k => exact .inl (hq ▸ hholder (l := .latch a) (by rw [hq]; rfl))
  | .unlock l k => exact .inl (hq ▸ hholder (l := l) (by rw [hq]; rfl))
  | .blocked p a =>
    -- without a private lock the thread could go on, so the flag is set
    rw [hq] at hplaced
    obtain ⟨rfl, k, hk⟩ := hplaced
    have hset : c.mem.mem.signalled a = true := by
      rw [hq] at hf
      simp only [InnerPc.outer, hk, Cmd.fire] at hf
      split at hf
      · assumption
      · cases hf
    by_cases hmem : t ∈ c.mem.asleep a
    · refine .inr ?_
      rcases (T.sleepers h).notifier (List.ne_nil_of_mem hmem) hset with ⟨u, k, hu⟩ | hw
      · refine hlocks.holder_steps hwakes (l := .latch a) ?_
        rw [(hlocks.thread (.latch a) u).mpr (by rw [hu]; rfl)]
        simp
      · refine hlocks.holder_steps hwakes (l := .latch a) ?_
        rw [(hlocks.timer a).mpr (by rw [hw]; rfl)]
        simp
    · refine .inl ⟨⟨none, false, 0⟩, ?_⟩
      simp [InnerMem.fire, hmem]
  | .relock p a =>
    by_cases hfree : c.mem.holder (.latch a) = none
    · refine .inl ⟨⟨none, false, 0⟩, ?_⟩
      simp [InnerMem.fire, hfree]
    · exact .inr (hlocks.holder_steps hwakes hfree)

end QubitLock
