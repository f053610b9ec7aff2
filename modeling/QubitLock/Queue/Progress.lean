import QubitLock.Blocking.Broadcast
import QubitLock.Blocking.Progress
import QubitLock.Queue.Operations

set_option relaxedAutoImplicit false
set_option autoImplicit false

/-!
# The bounded queue has no deadlock

Every operation that changes the queue notifies all after it has given the lock back, so no producer
waits while there is room and no consumer while there is an item, unless somebody is still on the way to
notify it. When nothing moves any more, the queue is full and the blocked operations are producers, or
it is empty and they are consumers, or it is closed and nobody is blocked.

## Main definitions

* `Queue.CanStep` — a thread can go on.
* `Queue.Blocked` — an operation waits rightly.
* `Queue.Owing` — the places of an operation that changed the queue and has not notified yet.

## Main results

* `Queue.queue_no_deadlock` — who waits waits rightly, or somebody can go on.
-/

namespace QubitLock.Queue

open Blocking (At Commits)

variable {α : Type}

/-- The places of an operation that changed the queue and has not taken the waiters yet. -/
def Owing : Pc α → Prop
  | .within op (.finish out) => op.after out = some .all
  | .ready _ .all => True
  | .notifying _ (.notify .all _) => True
  | _ => False

/-- An operation that changes the queue notifies all. -/
lemma after_of_act_ne {op : Op α} {s : QueueState α} (h : s ≠ (s.act op).1) :
    op.after (.value (s.act op).2) = some .all ∨
      ∃ timeout, op = .popFor timeout ∧ op.after (.timed (.ok (.ready (s.act op).2))) = some .all := by
  have hpop : s ≠ s.popFront.1 → ∃ item, s.popFront.2 = .popped (some item) := by
    intro hne
    cases hitems : s.items with
    | nil =>
      refine absurd ?_ hne
      obtain ⟨items, capacity, hpos, closed⟩ := s
      obtain rfl : items = [] := hitems
      rfl
    | cons item rest => exact ⟨item, by simp [QueueState.popFront, hitems]⟩
  cases op with
  | push item =>
    cases hclosed : s.closed with
    | true => simp [QueueState.act, QueueState.pushBack, hclosed] at h
    | false => exact .inl (by simp [QueueState.act, QueueState.pushBack, hclosed, Op.after])
  | pop =>
    obtain ⟨item, hitem⟩ := hpop h
    exact .inl (by simp [QueueState.act, hitem, Op.after])
  | popFor timeout =>
    obtain ⟨item, hitem⟩ := hpop h
    exact .inr ⟨timeout, rfl, by simp [QueueState.act, hitem, Op.after]⟩
  | close => exact .inl rfl

/-- After its action the call of an operation returns the result. -/
lemma owing_of_wrote {maxInstant : ℕ} {op : Op α} {ds : List (Did (QueueState α) (Res α))}
    {q k : Blocking.Pc (QueueState α) (Res α)} {f : QueueState α → QueueState α × Option (Res α)}
    {v s : QueueState α} (hi : Inside op ds q)
    (h : (Blocking.code maxInstant q).Reports (.wrote f v (some (s.act op).2)) k)
    (hne : s ≠ (s.act op).1) : Owing (.within op k) := by
  have hlocation := hi.location
  cases q with
  | write g n =>
    cases n with
    | none =>
      generalize hr : some (s.act op).2 = r at h
      cases h with
      | write _ _ v =>
        rw [← hr]
        rcases after_of_act_ne hne with hafter | ⟨timeout, rfl, -⟩
        · exact hafter
        · cases hlocation
    | some n => cases op <;> cases n <;> cases hlocation
  | act w timed =>
    generalize hr : some (s.act op).2 = r at h
    cases h with
    | write _ _ v =>
      rw [← hr]
      obtain ⟨-, htimed⟩ := hlocation
      rcases after_of_act_ne hne with hafter | ⟨timeout, rfl, hafter⟩
      · cases op with
        | popFor timeout => cases hafter
        | _ =>
          obtain rfl : false = timed := htimed
          exact hafter
      · obtain rfl : true = timed := htimed
        exact hafter
  | guardWrite => cases op <;> cases hlocation
  | notify n out => cases n <;> cases h
  | _ => cases h

variable {Tid : Type} [DecidableEq Tid] {maxInstant : ℕ} {s₀ : Setup (QueueState α)}
  {tr : List (Label α Tid)} {c : Threads.Conf (Mem (QueueState α) Tid) Tid (Pc α)}

omit [DecidableEq Tid] in
/-- An operation that has changed the queue goes on to its notification. -/
lemma Owing.fire {p p' : Pc α} {m : Mem (QueueState α) Tid} {t : Tid} {fault : Option TimeError}
    {d : Did (QueueState α) (Res α)} (h : Owing p)
    (hf : ((client α maxInstant).code p).fire m t fault = some (d, p')) :
    d.isLock = false ∧ (d.isTakeAll = false → Owing p') := by
  rcases (client α maxInstant).fire_cases hf with ⟨op, q, k, rfl, hk, rfl⟩ | ⟨op, q, k, rfl, hk, rfl⟩
  · cases q with
    | finish out =>
      cases hk
      have hafter : op.after out = some .all := h
      refine ⟨rfl, fun _ => ?_⟩
      simp only [Did.continues, Client.resume]
      rw [show (client α maxInstant).after op out = some .all from hafter]
      trivial
    | _ => cases h
  · cases q with
    | notify n out =>
      cases n with
      | one => cases h
      | all =>
        cases hk
        exact ⟨rfl, fun hno => by cases hno⟩
    | _ => cases h

/-- **A thread that owes a notification is on its way to it**, and takes no lock before.

**Proof sketch.** Induction on the run. A write that changes the queue leads to a place on the way to
`notify_all` (`owing_of_wrote`), and from such a place every primitive stays on the way until the
selection is made, and none of them takes the lock. -/
theorem owing_of_run (h : Run maxInstant s₀ tr c) :
    Disciplined Ne ((client α maxInstant).outerTrace tr) ∧
      ∀ t, Owes Ne ((client α maxInstant).outerTrace tr) t → Owing (c.pc t) := by
  refine Threads.Run.rule (I := fun tr _ pc => Disciplined Ne ((client α maxInstant).outerTrace tr) ∧
    ∀ t, Owes Ne ((client α maxInstant).outerTrace tr) t → Owing (pc t))
    (client α maxInstant).program.threads ?_ ?_ ?_ ?_ h
  · exact ⟨trivial, fun _ h => h.elim⟩
  · intro tr m pc t fault d p hr hi hf
    refine ⟨⟨fun hlock howes => ?_, hi.1⟩, fun u hu => ?_⟩
    · rw [((hi.2 t howes).fire hf).1] at hlock
      cases hlock
    · have hu : Owes Ne (.did t d :: (client α maxInstant).outerTrace tr) u := hu
      by_cases hut : t = u
      · subst hut
        rw [Function.update_self]
        simp only [Owes, if_true] at hu
        obtain ⟨-, htake, ⟨⟨v, v'⟩, hchange, hne⟩ | howes⟩ := hu
        · -- the write that has just changed the queue
          cases d with
          | wrote f v r =>
            cases hchange
            obtain ⟨op, ds, q, k, -, -, hin, hreports, rfl, rfl, happly, rfl⟩ := effect_of_run hr hf
            refine owing_of_wrote hin hreports ?_
            obtain ⟨-, -, hact⟩ := QueueState.apply_eq_some happly
            rw [congrArg Prod.fst hact]
            exact hne
          | _ => cases hchange
        · exact ((hi.2 t howes).fire hf).2 htake
      · simp only [Owes, hut, if_false] at hu
        rw [Function.update_of_ne (Ne.symm hut)]
        exact hi.2 u hu
  · intro tr m pc t x p hr hi hj
    refine ⟨⟨trivial, hi.1⟩, fun u hu => ?_⟩
    have howing := hi.2 u hu
    by_cases hut : u = t
    · subst hut
      rw [Function.update_self]
      cases x with
      | op o =>
        cases hp : pc u with
        | idle =>
          rw [hp] at howing
          cases howing
        | _ =>
          rw [hp] at hj
          cases hj
      | notify n =>
        cases hp : pc u with
        | ready op' n' =>
          rw [hp] at hj howing
          cases n' with
          | one => cases howing
          | all =>
            simp only [client, Client.program, Program.threads, Client.jump] at hj
            split at hj
            · cases hj
              trivial
            · cases hj
        | _ =>
          rw [hp] at hj
          cases hj
    · rw [Function.update_of_ne hut]
      exact howing
  · intro tr m pc e m' b hr hi he
    exact ⟨⟨trivial, hi.1⟩, hi.2⟩

/-! ## Who waits -/

/-- The thread can go on: it can execute a primitive, or go on to its notification. -/
def CanStep (maxInstant : ℕ) (c : Threads.Conf (Mem (QueueState α) Tid) Tid (Pc α)) (t : Tid) : Prop :=
  (∃ fault, ((client α maxInstant).program.threads.fire c.mem t fault (c.pc t)).isSome) ∨
    ∃ n, ((client α maxInstant).jump (c.pc t) (.notify n)).isSome

/-- The thread waits rightly: it is parked in an operation that is not possible now, and every
notification reaches it. -/
def Blocked (c : Threads.Conf (Mem (QueueState α) Tid) Tid (Pc α)) (t : Tid) (op : Op α) : Prop :=
  ∃ timed caller g, c.pc t = .within op (.park timed caller g) ∧ g ∈ c.mem.registrations ∧
    c.mem.signalled g.waiter = false ∧ c.mem.value.admits op = false

/-- A thread whose primitive can be executed can go on. -/
lemma canStep_of_ready {t : Tid}
    (h : (Blocking.code maxInstant
      (Client.outer (Blocking.program maxInstant) (c.pc t))).Ready c.mem t) : CanStep maxInstant c t := by
  refine .inl ⟨none, ?_⟩
  show (((client α maxInstant).code (c.pc t)).fire c.mem t none).isSome
  cases hp : c.pc t with
  | idle | ready =>
    rw [hp] at h
    cases h
  | within op q | notifying op q =>
    rw [hp] at h
    simp only [Client.code, Cmd.fire_within, Option.isSome_map]
    exact Cmd.isSome_fire_iff.mpr h

/-- A thread on its way to a notification can go on. -/
lemma Owing.canStep {t : Tid} (h : Owing (c.pc t)) : CanStep maxInstant c t := by
  cases hp : c.pc t with
  | idle =>
    rw [hp] at h
    cases h
  | ready op n =>
    refine .inr ⟨n, ?_⟩
    rw [hp]
    cases n <;> simp [Client.jump, client, notification, Blocking.program, Blocking.jump]
  | within op q =>
    refine canStep_of_ready ?_
    rw [hp] at h ⊢
    cases q with
    | finish out => trivial
    | _ => cases h
  | notifying op q =>
    refine canStep_of_ready ?_
    rw [hp] at h ⊢
    cases q with
    | notify n out =>
      cases n with
      | one => cases h
      | all => trivial
    | _ => cases h

/-- A thread in an operation is in no user code of the monitor. -/
lemma not_userCode (h : Run maxInstant s₀ tr c) {t : Tid} {op : Op α}
    {q : Blocking.Pc (QueueState α) (Res α)} (hq : c.pc t = .within op q ∨ c.pc t = .notifying op q) :
    ¬ Blocking.UserCode q := by
  obtain ⟨op', ds, -, hw⟩ := exists_within (t := t) h (by rcases hq with hq | hq <;> simp [hq])
  rcases hq with hq | hq
  · rw [hq] at hw
    obtain ⟨-, hi⟩ := hw
    have hbusy := hi.busy
    cases q with
    | idle | held | heldUnwinding => cases hbusy
    | _ => exact id
  · rw [hq] at hw
    obtain ⟨-, -, rfl | ⟨-, rfl | ⟨a, rest, rfl⟩⟩⟩ := hw <;> exact id

/-- An operation that can not be done now keeps its predicate. -/
lemma pure_of_waits {op : Op α} {w : Condition (QueueState α) (Res α)} (h : op.waits = some w) :
    w.Pure fun s => !s.admits op := by
  cases op <;> cases h <;> exact fun n v => rfl

/-- A parked thread that is in the registry waits rightly, or a notification is on its way.

**Proof sketch.** The queue keeps the discipline of broadcasts, so a parked thread in the registry knows
the value rightly or some thread still owes a notification (`informed`). That thread is on its way to it
and can go on. -/
lemma blocked_of_parked (h : Run maxInstant s₀ tr c) {t : Tid} {op : Op α}
    {q k : Blocking.Pc (QueueState α) (Res α)} {g : Registration}
    (hq : c.pc t = .within op q ∨ c.pc t = .notifying op q)
    (houter : Client.outer (Blocking.program maxInstant) (c.pc t) = q)
    (hpark : Blocking.code maxInstant (Client.outer (Blocking.program maxInstant) (c.pc t)) =
      .park g.waiter k)
    (hset : c.mem.signalled g.waiter = false)
    (hreg : (Blocking.typ (Client.outer (Blocking.program maxInstant) (c.pc t))).reg = some g)
    (hin : g ∈ c.mem.registrations) : (∃ op, Blocked c t op) ∨ ∃ u, CanStep maxInstant c u := by
  obtain ⟨timed, caller, g', hp, -⟩ := Blocking.park_of_code hpark
  obtain rfl : g' = g := by
    rw [hp] at hreg
    exact Option.some.inj hreg
  obtain rfl : q = .park timed caller g' := houter.symm.trans hp
  obtain ⟨op', ds, -, hw⟩ := exists_within (t := t) h (by rcases hq with hq | hq <;> simp [hq])
  rcases hq with hq | hq
  · rw [hq] at hw
    obtain ⟨rfl, hi⟩ := hw
    obtain ⟨w, n, rfl⟩ := loop_of_waits hi.location
    have hwaits : op.waits = some w := by
      rw [← op.condition_call]
      exact hi.location.1
    obtain ⟨hdisc, howing⟩ := owing_of_run h
    have hinformed := (Blocking.waits maxInstant).informed (Blocking.typed maxInstant Tid)
      ((client α maxInstant).run h) hdisc (t := t) (w := w) (g := g')
      (by show Blocking.waitsOn (Client.outer _ (c.pc t)) = _; rw [hp]; rfl) (pure_of_waits hwaits)
      (fun v v' hv htrue => by rwa [← not_ne_iff.mp hv]) hreg hin
    rcases hinformed with hfalse | ⟨u, hu⟩
    · have hfalse : (!c.mem.value.admits op) = true := hfalse
      exact .inl ⟨op, timed, _, g', hq, hin, hset, by simpa using hfalse⟩
    · exact .inr ⟨u, (howing u hu).canStep⟩
  · rw [hq] at hw
    obtain ⟨-, -, heq | ⟨-, heq | ⟨a, rest, heq⟩⟩⟩ := hw <;> cases heq

/-- **Who waits waits rightly, or somebody can go on.**

**Proof sketch.** A thread between its two calls can make the second one. Otherwise its primitive is not
ready: it waits for the lock, whose owner is inside a call and can go on, or it is parked. A parked
thread has a notification on the way, or it is registered and then its wait is informed
(`blocked_of_parked`). -/
lemma blocked_or_canStep (h : Run maxInstant s₀ tr c) {t : Tid} (ht : c.pc t ≠ .idle)
    (hno : ¬ CanStep maxInstant c t) : (∃ op, Blocked c t op) ∨ ∃ u, CanStep maxInstant c u := by
  have hr := (client α maxInstant).run h
  have howned := (Blocking.typed maxInstant Tid).owned hr
  have hready : ¬ (Blocking.code maxInstant
      (Client.outer (Blocking.program maxInstant) (c.pc t))).Ready c.mem t :=
    fun h => hno (canStep_of_ready h)
  -- the thread is inside a call of the monitor
  have hin : ∃ op q, c.pc t = .within op q ∨ c.pc t = .notifying op q := by
    cases hp : c.pc t with
    | idle => exact absurd hp ht
    | ready op n =>
      refine absurd (.inr ⟨n, ?_⟩) hno
      rw [hp]
      cases n <;> simp [Client.jump, client, notification, Blocking.program, Blocking.jump]
    | within op q => exact ⟨op, q, .inl rfl⟩
    | notifying op q => exact ⟨op, q, .inr rfl⟩
  obtain ⟨op, q, hq⟩ := hin
  have houter : Client.outer (Blocking.program maxInstant) (c.pc t) = q := by
    rcases hq with hq | hq <;> rw [hq] <;> rfl
  rcases (Blocking.typed maxInstant Tid).waits_for howned hready with hsus | ⟨k, u, -, hu, -⟩ |
    ⟨k, g, hpark, hset, hreg, hsource⟩
  · refine absurd (Blocking.userCode_of_suspend hsus) ?_
    rw [show (Client.outerConf (Blocking.program maxInstant) c).pc t = q from houter]
    exact not_userCode h hq
  · -- the owner of the state lock is no user code
    rcases (Blocking.typed maxInstant Tid).owner_ready howned hu with hsus | hready
    · have huser : Blocking.UserCode (Client.outer (Blocking.program maxInstant) (c.pc u)) :=
        Blocking.userCode_of_suspend hsus
      have hholds : (Blocking.typ (Client.outer (Blocking.program maxInstant) (c.pc u))).holds = true :=
        (howned.lock.owner u).mp hu
      cases hp : c.pc u with
      | idle | ready =>
        rw [hp] at hholds
        cases hholds
      | within op' q' =>
        rw [hp] at huser
        exact absurd huser (not_userCode h (.inl hp))
      | notifying op' q' =>
        rw [hp] at huser
        exact absurd huser (not_userCode h (.inr hp))
    · exact .inr ⟨u, canStep_of_ready hready⟩
  · rcases hsource with hin | ⟨u, hu⟩
    · exact blocked_of_parked h hq houter hpark hset hreg hin
    · exact .inr ⟨u, canStep_of_ready (Blocking.ready_of_sig hu)⟩

/-- What a user of the queue can rely on if nothing moves: everybody is idle or waits rightly. -/
structure AtRest (c : Threads.Conf (Mem (QueueState α) Tid) Tid (Pc α)) : Prop where
  /-- A thread is in no operation, or it waits rightly. -/
  blocked : ∀ t, c.pc t = .idle ∨ ∃ op, Blocked c t op
  /-- Nobody waits on a closed queue. -/
  closed : c.mem.value.closed = true → ∀ t, c.pc t = .idle
  /-- Producers and consumers do not wait for each other. -/
  producers : ∀ {t u item op}, Blocked c t (.push item) → Blocked c u op → ∃ item', op = .push item'

/-- **The queue has no deadlock.** In every state of every run, an operation that can not go on is
parked while it is not possible (`push`: the queue is open and full; `pop`: it is open and empty) and
every notification reaches it, or else some thread can go on. When no thread can go on, nobody waits on
a closed queue, and producers and consumers are not blocked at the same time.

**Proof sketch.** If nobody can go on, every operation is blocked, so it is parked and not possible in
the state at that moment. On a closed queue every operation is possible, and a queue can not be full and
empty at once because its capacity is positive. -/
theorem queue_no_deadlock (h : Run maxInstant s₀ tr c) :
    (∀ t, c.pc t ≠ .idle → ¬ CanStep maxInstant c t →
      (∃ op, Blocked c t op) ∨ ∃ u, CanStep maxInstant c u) ∧
    ((∀ u, ¬ CanStep maxInstant c u) → AtRest c) := by
  refine ⟨fun t ht hno => blocked_or_canStep h ht hno, fun hrest => ?_⟩
  have hblocked : ∀ t, c.pc t = .idle ∨ ∃ op, Blocked c t op := by
    intro t
    by_cases ht : c.pc t = .idle
    · exact .inl ht
    · rcases blocked_or_canStep h ht (hrest t) with hb | ⟨u, hu⟩
      · exact .inr hb
      · exact absurd hu (hrest u)
  refine ⟨hblocked, fun hclosed t => ?_, ?_⟩
  · rcases hblocked t with hidle | ⟨op, timed, caller, g, -, -, -, hadmits⟩
    · exact hidle
    · cases op <;> simp [QueueState.admits, QueueState.canPush, QueueState.canPop, hclosed] at hadmits
  · rintro t u item op ⟨-, -, -, -, -, -, hpush⟩ ⟨-, -, -, -, -, -, hadmits⟩
    have hpos := c.mem.value.capacity_pos
    have hfull : c.mem.value.capacity ≤ c.mem.value.items.length := by
      simp only [QueueState.admits, QueueState.canPush, Bool.or_eq_false_iff,
        decide_eq_false_iff_not] at hpush
      omega
    cases op with
    | push item' => exact ⟨item', rfl⟩
    | pop | popFor =>
      simp only [QueueState.admits, QueueState.canPop, Bool.or_eq_false_iff, Bool.not_eq_false',
        List.isEmpty_iff] at hadmits
      rw [hadmits.2, List.length_nil] at hfull
      omega
    | close => cases hadmits

/-- A consumer waits for an item, and nothing moves. -/
theorem queue_no_deadlock_consumer :
    ∃ (tr : List (Label ℕ Bool)) (c : Threads.Conf (Mem (QueueState ℕ) Bool) Bool (Pc ℕ)),
      Run 100 ⟨.new 1 (by decide), 0, false⟩ tr c ∧ (∀ u, ¬ CanStep 100 c u) ∧ c.pc false ≠ .idle ∧
        AtRest c := by
  have hr : ∃ (tr : List (Label ℕ Bool)) (c : Threads.Conf (Mem (QueueState ℕ) Bool) Bool (Pc ℕ)),
      Run 100 ⟨.new 1 (by decide), 0, false⟩ tr c ∧
      c.pc false = .within .pop (.park false (.loop popping 1) ⟨1, 0⟩) ∧ c.pc true = .idle ∧
      c.mem.signalled 0 = false :=
    ⟨_, _, Lts.Run.nil.cons (.choose false (.op .pop)) rfl |>.cons (.run false none) rfl
      |>.cons (.run false none) rfl |>.cons (.run false none) rfl |>.cons (.run false none) rfl,
      rfl, rfl, rfl⟩
  obtain ⟨tr, c, hr, hpc, hidle, hset⟩ := hr
  have hrest : ∀ u, ¬ CanStep 100 c u := by
    rintro (_ | _) (⟨fault, hf⟩ | ⟨n, hn⟩)
    · rw [hpc] at hf
      simp [Client.program, Program.threads, Client.code, Blocking.program, Blocking.code, Cmd.within,
        Cmd.fire, hset] at hf
    · rw [hpc] at hn
      cases hn
    · rw [hidle] at hf
      cases hf
    · rw [hidle] at hn
      cases hn
  exact ⟨tr, c, hr, hrest, by simp [hpc], (queue_no_deadlock hr).2 hrest⟩

end QubitLock.Queue
