import QubitLock.Blocking.Calls
import QubitLock.Monitor.Broadcast

set_option relaxedAutoImplicit false
set_option autoImplicit false

/-!
# Broadcast on the blocking monitors

A predicate wait of a blocking monitor checks, registers and releases the state lock in this order,
with up to two polls of its Timer in between, and so it is a wait in the sense of
`Monitor/Broadcast.lean`: no broadcast is lost to it. The supposition that every change is broadcast
is met by threads that change the value with `with_write_notify_all`, or through guards which they
give up by `notify_all`.

## Main definitions

* `Blocking.waitsOn` — the closures of the predicate wait that a program counter belongs to, from
  the check that blocked to the end of the suspension.
* `Blocking.Op.Broadcasts`, `Blocking.GuardsBroadcast` — operations and guards that broadcast what
  they change.

## Main results

* `Blocking.broadcast_not_lost` — a registered wait has a true predicate or a `notify_all` is
  still to come.
* `Blocking.disciplined_of_broadcasts` — `with_write_notify_all` and `notify_all` of a guard broadcast
  in time.
-/

namespace QubitLock.Blocking

variable {σ ρ : Type}

/-- The closures of the predicate wait that called a guard wait. -/
def Caller.condition : Caller σ ρ → Option (Condition σ ρ)
  | .loop w _ => some w
  | .guard => none

/-- The closures of a predicate wait that was told to block and has not ended the suspension that
follows. -/
def waitsOn : Pc σ ρ → Option (Condition σ ρ)
  | .timerAt _ c _ | .pollNoWaiter c | .register _ c | .pollRegistered c _ | .dropEarly c _ _ |
    .release _ c _ | .park _ c _ | .dropRegistration _ c _ | .unwindRegistration c _ => c.condition
  | .earlyPoll w => some w
  | _ => none

@[simp] lemma waitsOn_entry (e : Entry σ ρ) : waitsOn e.pc = none := by
  cases e <;> rfl

@[simp] lemma waitsOn_wakeAll (as : List ℕ) (out : Outcome ρ) :
    waitsOn (wakeAll as out : Pc σ ρ) = none := by
  cases as <;> rfl

@[simp] lemma waitsOn_resume (c : Caller σ ρ) : waitsOn (resume c) = none := by
  cases c <;> rfl

@[simp] lemma waitsOn_resumeTimed (c : Caller σ ρ) (r : Except TimeError WaitTimeoutStatus) :
    waitsOn (resumeTimed c r) = none := by
  cases c <;> cases r <;> rfl

@[simp] lemma waitsOn_timerFailed (c : Caller σ ρ) (e : TimeError) :
    waitsOn (timerFailed c e) = none := by
  cases c <;> rfl

@[simp] lemma waitsOn_panicked (c : Caller σ ρ) : waitsOn (panicked c) = none := by
  cases c <;> rfl

/-- A predicate wait of a blocking monitor blocks only after its check, and neither takes the lock
nor writes before its suspension ends. -/
lemma waitsOn_reports {maxInstant : ℕ} {p : Pc σ ρ} {d : Did σ ρ} {p' : Pc σ ρ}
    {w : Condition σ ρ} (h : (code maxInstant p).Reports d p') (hw : waitsOn p' = some w) :
    (waitsOn p = some w ∧ d ≠ .locked ∧ ∀ f v r, d ≠ .wrote f v r) ∨
      ∃ n v, d = .checked v (some true) ∧ w.waiting n v = some true := by
  cases p with
  | idle | held | heldUnwinding => cases h
  | check w' n =>
    cases h with
    | check _ _ v =>
      rcases hv : w'.waiting n v with - | - | - <;> rw [hv] at hw <;> cases hw
      exact .inr ⟨n, v, rfl, hv⟩
  | checkFor timeout startedAt w' =>
    cases h with
    | check _ _ v =>
      rcases hv : w'.waiting 0 v with - | - | - <;> rw [hv] at hw
      · cases hw
      · cases hw
      · dsimp only at hw
        split at hw
        · cases hw
        · split at hw <;> cases hw
          exact .inr ⟨0, v, rfl, hv⟩
  | checkDeadline deadline w' =>
    cases h with
    | check _ _ v =>
      rcases hv : w'.waiting 0 v with - | - | - <;> rw [hv] at hw <;> cases hw
      exact .inr ⟨0, v, rfl, hv⟩
  | recheck w' n status =>
    cases h with
    | check _ _ v =>
      rcases hv : w'.waiting n v with - | - | - <;> rw [hv] at hw
      · cases hw
      · cases hw
      · cases status <;> cases hw
        exact .inr ⟨n, v, rfl, hv⟩
  | timerAt deadline c early =>
    cases h with
    | timerAt _ _ r =>
      refine .inl ⟨?_, by simp, by simp⟩
      cases r with
      | error e => simp at hw
      | ok _ => cases c <;> cases early <;> exact hw
  | earlyPoll w' =>
    cases h with
    | pollTimer _ _ r =>
      refine .inl ⟨?_, by simp, by simp⟩
      rcases r with _ | _ | _ <;> first | exact hw | cases hw
  | pollNoWaiter c | pollRegistered c g =>
    cases h with
    | pollTimer _ _ r =>
      refine .inl ⟨?_, by simp, by simp⟩
      cases r <;> first | exact hw | simp at hw
  | register timed c =>
    cases h with
    | register _ g =>
      refine .inl ⟨?_, by simp, by simp⟩
      cases g with
      | none => simp at hw
      | some g => cases timed <;> exact hw
  | release timed c g | park timed c g =>
    cases h
    exact .inl ⟨hw, by simp, by simp⟩
  | dropRegistration timed c g =>
    cases h
    cases timed <;> cases hw
  | notify n out => cases n <;> cases h <;> simp at hw
  | acquire | signal | dropEarly | reacquire | unwindRegistration =>
    cases h
    simp at hw
  | finalPoll c a =>
    cases h with
    | pollTimer _ _ r => cases r <;> simp at hw
  | deadlineAfter | timerAfter =>
    cases h
    dsimp only at hw
    split at hw <;> cases hw
  | read | guardRead | guardWrite | act =>
    cases h
    dsimp only at hw
    split at hw <;> cases hw
  | write f n =>
    cases h
    cases n <;> dsimp only at hw <;> split at hw <;> cases hw
  | _ =>
    cases h
    cases hw

/-- The waits of a blocking monitor. -/
def waits (maxInstant : ℕ) : Waits (program maxInstant : Program σ ρ (Pc σ ρ) (Choice σ ρ)) where
  cond := waitsOn
  idle := rfl
  reports := waitsOn_reports
  jump := by
    intro p x p' w h hw
    cases p <;> cases x <;> simp only [program, jump, reduceCtorEq] at h <;> cases h
    case idle.call op => cases op <;> cases hw
    case held.guard op => cases op <;> cases hw
    all_goals cases hw

variable {Tid : Type} [DecidableEq Tid]

/-- **No lost wakeup under broadcast.** Let no thread take the state lock while it owes a
`notify_all` for a change that it made in its previous critical section. Then every registration
in the registry belongs to a thread, and if that thread is in a predicate wait with the pure
predicate `p`, then `p` is true on the protected value or some thread still owes a `notify_all`.

**Proof sketch.** The registrations in the registry are those of the threads, so the registration has
an owner. If this is a predicate wait, the argument of `Monitor/Broadcast.lean` applies to it, and
here every change of the value counts. -/
theorem broadcast_not_lost (maxInstant : ℕ) (s₀ : Setup σ)
    {tr : List (Program.Label σ ρ (Choice σ ρ) Tid)} {c : Threads.Conf (Mem σ Tid) Tid (Pc σ ρ)}
    (h : (program maxInstant).Run s₀ tr c) (hdisc : Disciplined Ne tr) {g : Registration}
    (hg : g ∈ c.mem.registrations) :
    ∃ t, (typ (c.pc t)).reg = some g ∧ ∀ w p, waitsOn (c.pc t) = some w → w.Pure p →
      p c.mem.value = true ∨ ∃ u, Owes Ne tr u := by
  obtain ⟨t, ht⟩ := ((typed maxInstant Tid).owned h).reg.live hg
  refine ⟨t, ht, fun w p hw hp => ?_⟩
  refine (waits maxInstant).informed (typed maxInstant Tid) h hdisc hw hp ?_ ht hg
  intro v v' hv htrue
  rwa [← not_ne_iff.mp hv]

/-- Thread `false` waits while the value is zero and parks; thread `true` increments the value and
releases the lock, and its `take_all` is still to come. -/
def lateNotification : List (Threads.Event Bool (Option TimeError) (Choice ℕ Unit)
    (TimerEvent Bool)) :=
  [.choose false (.call (.waitWhile ⟨fun _ v => some (v == 0), fun v => (v - 1, some ())⟩)),
    .run false none, .run false none, .run false none, .run false none,
    .choose true (.call (.withWriteNotifyAll fun v => (v + 1, some ()))),
    .run true none, .run true none, .run true none]

theorem broadcast_not_lost_late : ∃ tr c,
    (program 100 : Program ℕ Unit _ _).Run ⟨0, 0, true⟩ tr c ∧ Disciplined Ne tr ∧
      c.mem.value = 1 ∧ ⟨1, 0⟩ ∈ c.mem.registrations ∧
      ∃ t : Bool, (typ (c.pc t)).reg = some ⟨1, 0⟩ ∧ ∀ w p, waitsOn (c.pc t) = some w →
        w.Pure p → p c.mem.value = true ∨ ∃ u, Owes Ne tr u := by
  obtain ⟨tr, c, hr, hp, -⟩ := (program 100).threads.exists_run_of_play
    ((program 100).start ⟨0, 0, true⟩) lateNotification
    (p := fun s => Disciplined Ne s.2 ∧ s.1.mem.value = 1 ∧ ⟨1, 0⟩ ∈ s.1.mem.registrations)
    (by decide)
  simp only [decide_eq_true_eq] at hp
  exact ⟨tr, c, hr, hp.1, hp.2.1, hp.2.2, broadcast_not_lost 100 _ hr hp.1 hp.2.2⟩

/-! ## Threads that broadcast -/

/-- An operation that changes the value broadcasts the change: `with_write_notify_all` does, as long as
its closure does not panic after the change. The others change nothing. -/
def Op.Broadcasts : Op σ ρ → Prop
  | .withWriteNotifyAll f => ∀ v, (f v).1 = v ∨ (f v).2.isSome
  | .withWrite f | .withWriteNotifyOne f => ∀ v, (f v).1 = v
  | .waitWhile w | .waitWhileFor _ w | .waitWhileWithDeadline _ w |
    .waitWhileWithTotalTimeout _ w => ∀ v, (w.f v).1 = v
  | .withRead _ | .notifyOne | .notifyAll | .lock | .isPoisoned | .clearPoison => True

/-- The choice goes on with a guard, or gives it up by `notify_all`. -/
def Choice.broadcasts : Choice σ ρ → Bool
  | .guard (.deref _) | .guard (.derefMut _) | .guard .notifyAll | .catchPanic => true
  | _ => false

/-- A label by which a thread that owes a notification goes on with its guard. -/
def GuardClean : Program.Label σ ρ (Choice σ ρ) Tid → List (Program.Label σ ρ (Choice σ ρ) Tid) → Prop
  | .chose t x, past => Owes Ne past t → x.broadcasts = true
  | _, _ => True

/-- A guard through which the value was changed is given up by `notify_all`. -/
def GuardsBroadcast (tr : List (Program.Label σ ρ (Choice σ ρ) Tid)) : Prop :=
  Lts.Always GuardClean tr

/-- A thread between a change and its `take_all`: it owns its guard, or it is in `notify_all`. -/
def Owing : Pc σ ρ → Prop
  | .held | .heldUnwinding | .guardRead _ | .guardWrite _ | .guardDone _ | .notifyRelease .all _ |
    .notify .all _ => True
  | _ => False

/-- A thread that owes a notification goes on to its `take_all` without taking the lock. -/
lemma owing_reports {maxInstant : ℕ} {p p' : Pc σ ρ} {d : Did σ ρ}
    (h : (code maxInstant p).Reports d p') (hp : Owing p) :
    d.isLock = false ∧ (d.isTakeAll = false → Owing p') := by
  cases p with
  | held | heldUnwinding => cases h
  | guardRead f =>
    cases h with
    | read _ _ v => exact ⟨rfl, fun _ => by cases f v <;> trivial⟩
  | guardWrite f =>
    cases h with
    | write _ _ v => exact ⟨rfl, fun _ => by cases (f v).2 <;> trivial⟩
  | guardDone out =>
    cases h
    exact ⟨rfl, fun _ => trivial⟩
  | notifyRelease n out =>
    cases n with
    | one => cases hp
    | all =>
      cases h
      exact ⟨rfl, fun _ => trivial⟩
  | notify n out =>
    cases n with
    | one => cases hp
    | all =>
      cases h
      exact ⟨rfl, fun hd => by cases hd⟩
  | _ => cases hp

/-- A broadcasting operation that changes the value goes on to its `take_all`. -/
lemma owing_wrote {maxInstant : ℕ} {o : Call σ ρ} {p p' : Pc σ ρ} {f : σ → σ × Option ρ} {v : σ}
    {r : Option ρ} (h : (code maxInstant p).Reports (.wrote f v r) p') (hat : At o p)
    (hop : ∀ op, o = .op op → op.Broadcasts) (hv : v ≠ (f v).1) : Owing p' := by
  cases p with
  | write f' n =>
    cases h
    rcases n with _ | _ | _ <;> obtain rfl : o = _ := hat
    · exact absurd (hop _ rfl v).symm hv
    · exact absurd (hop _ rfl v).symm hv
    · have hsome := (hop _ rfl v).resolve_left hv.symm
      obtain ⟨r, hr⟩ := Option.isSome_iff_exists.mp hsome
      rw [hr]
      trivial
  | guardWrite f' =>
    cases h
    cases (f v).2 <;> trivial
  | act w timed =>
    cases h
    -- the action of a wait changes nothing
    have hkeep : ∀ v, (w.f v).1 = v := by
      cases o with
      | op op => cases op <;> cases hat.1 <;> exact hop _ rfl
      | guard => cases hat.1
    exact absurd (hkeep v).symm hv
  | notify n out => cases n <;> cases h
  | _ => cases h

/-- A thread that owes a notification and goes on with its guard still owns it, or sends. -/
lemma owing_jump {p p' : Pc σ ρ} {x : Choice σ ρ} (hj : jump p x = some p') (hp : Owing p)
    (hx : x.broadcasts = true) : Owing p' := by
  cases p with
  | held =>
    cases x with
    | guard op =>
      cases op <;> cases hx <;> cases hj
      all_goals trivial
    | _ => cases hj
  | heldUnwinding =>
    cases x with
    | catchPanic =>
      cases hj
      trivial
    | propagate => cases hx
    | _ => cases hj
  | guardRead | guardWrite | guardDone | notifyRelease | notify => cases hj
  | _ => cases hp

/-- **`with_write_notify_all` and `notify_all` of a guard broadcast in time.** A run whose operations
broadcast what they change, and whose guards are given up by `notify_all` after a change, is
disciplined.

**Proof sketch.** Induction on the run: a thread that owes a notification owns its guard or is in
`notify_all`, and it takes the lock at none of these program counters. -/
theorem disciplined_of_broadcasts (maxInstant : ℕ) {s₀ : Setup σ}
    {tr : List (Program.Label σ ρ (Choice σ ρ) Tid)} {c : Threads.Conf (Mem σ Tid) Tid (Pc σ ρ)}
    (h : (program maxInstant).Run s₀ tr c)
    (hops : ∀ t op, .chose t (.call op) ∈ tr → op.Broadcasts) (hguards : GuardsBroadcast tr) :
    Disciplined Ne tr := by
  suffices hboth : Disciplined Ne tr ∧ ∀ t, Owes Ne tr t → Owing (c.pc t) from hboth.1
  revert hops hguards
  refine (typed maxInstant Tid).rule (I := fun tr _ pc =>
    (∀ t op, .chose t (.call op) ∈ tr → op.Broadcasts) → GuardsBroadcast tr →
    Disciplined Ne tr ∧ ∀ t, Owes Ne tr t → Owing (pc t)) ?_ ?_ ?_ ?_ h
  · exact fun _ _ => ⟨trivial, fun t ht => ht.elim⟩
  · intro tr m pc t d p hr hi hf hops hguards
    have hops' : ∀ t op, .chose t (.call op) ∈ tr → op.Broadcasts :=
      fun t op hmem => hops t op (List.mem_cons_of_mem _ hmem)
    obtain ⟨hdisc, howing⟩ := hi hops' hguards.2
    have hreports : (code maxInstant (pc t)).Reports d p := hf.reports
    refine ⟨⟨fun hlock hu => ?_, hdisc⟩, fun u hu => ?_⟩
    · rw [(owing_reports hreports (howing t hu)).1] at hlock
      cases hlock
    · by_cases hut : u = t
      · subst hut
        rw [Function.update_self]
        obtain ⟨-, hall, ⟨f, v, r, rfl, hne⟩ | hu⟩ := owes_did_self hu
        · rcases (calls maxInstant).located (typed maxInstant Tid) hr u with huser | ⟨o, ho, hat⟩
          · cases eq_unwound_of_user hreports huser
          · refine owing_wrote hreports hat (fun op hop => ?_) hne
            subst hop
            obtain ⟨x, hx, hmem⟩ := call_mem ho
            cases x <;> cases hx
            exact hops' u op hmem
        · exact (owing_reports hreports (howing u hu)).2 hall
      · rw [Function.update_of_ne hut]
        simp only [Owes, Ne.symm hut, if_false] at hu
        exact howing u hu
  · intro tr m pc t x p hr hi hj hops hguards
    obtain ⟨hdisc, howing⟩ := hi (fun t op hmem => hops t op (List.mem_cons_of_mem _ hmem)) hguards.2
    refine ⟨⟨trivial, hdisc⟩, fun u hu => ?_⟩
    by_cases hut : u = t
    · subst hut
      rw [Function.update_self]
      exact owing_jump hj (howing u hu) (hguards.1 hu)
    · rw [Function.update_of_ne hut]
      exact howing u hu
  · intro tr m pc e m' b hr hi he hops hguards
    obtain ⟨hdisc, howing⟩ := hi (fun t op hmem => hops t op (List.mem_cons_of_mem _ hmem)) hguards.2
    exact ⟨⟨trivial, hdisc⟩, howing⟩

end QubitLock.Blocking
