import QubitLock.Lock.Isolation

set_option relaxedAutoImplicit false
set_option autoImplicit false

/-!
# Poisoning

The locks of the standard library are poisoned by a panic that drops an exclusive guard: any guard of
a `Mutex`, and the write guard of a `RwLock`. A guard remembers whether its thread was unwinding when
it was taken, and such a guard poisons nothing. The traits do not let anybody past the marker: the
waiting operations unwrap it and panic, the others return `TryLockError::Poisoned`. So a poisoned lock
keeps the value that it had, and no closure ever runs under it again.

## Main definitions

* `tookUnwinding` — the thread of an activity was unwinding when it took the lock last.
* `PanickedUnder` — a panic has dropped an exclusive guard that was not taken while unwinding.
* `Pc.Barred` — the program counters of an activity that cannot get past the marker.

## Main results

* `poisoned_iff` — when a lock is poisoned.
* `poisoning_exact` — when a lock is poisoned, and that it stays so and keeps its value.
-/

namespace QubitLock.Lock

variable {σ ρ Tid : Type} [DecidableEq Tid] {b : Backend} {v₀ : σ} {tr : List (Label σ ρ Tid)}
  {c : Threads.Conf (Mem σ Tid) Tid (Pc σ ρ)}

/-- The thread of an activity was unwinding when the activity took the lock last. -/
def tookUnwinding (t : Tid) : List (Label σ ρ Tid) → Bool
  | [] => false
  | .did u (.acquired _ _ panicking) :: tr => if u = t then panicking else tookUnwinding t tr
  | _ :: tr => tookUnwinding t tr

/-- **A guard remembers whether its thread was unwinding when it was taken.** -/
lemma unwinding_eq (h : Run b v₀ tr c) (t : Tid) : c.mem.unwinding t = tookUnwinding t tr := by
  revert t
  refine Run.induct (I := fun tr m _ => ∀ t, m.unwinding t = tookUnwinding t tr) ?_ ?_ ?_ h
  · exact fun t => rfl
  · intro tr m pc t o d p hr hi hf u
    cases d with
    | acquired md poisoned panicking =>
      by_cases hut : u = t
      · subst hut
        simp [effect, tookUnwinding]
      · simp [effect, tookUnwinding, hut, Ne.symm hut, hi]
    | _ => exact hi u
  · intro tr m pc t x p hr hi hj
    exact hi

/-- A panic has dropped an exclusive guard whose thread was not unwinding when it was taken. -/
def PanickedUnder (tr : List (Label σ ρ Tid)) : Prop :=
  ∃ t past, .did t (.released .exclusive true) :: past <:+ tr ∧ tookUnwinding t past = false

/-- The marker after a report. -/
lemma effect_poisoned (m : Mem σ Tid) (t : Tid) (d : Did σ ρ) :
    (effect b m t d).poisoned = match d with
      | .released .exclusive true => m.poisoned || (b.poisons && !m.unwinding t)
      | _ => m.poisoned := by
  cases d with
  | released md panicking => cases md <;> cases panicking <;> simp [effect]
  | _ => rfl

/-- A label that drops no exclusive guard by a panic adds no such panic. -/
lemma panickedUnder_cons {l : Label σ ρ Tid} (hl : ∀ t, l ≠ .did t (.released .exclusive true)) :
    PanickedUnder (l :: tr) ↔ PanickedUnder tr := by
  refine exists_congr fun t => exists_congr fun past => and_congr_left fun _ => ?_
  rw [List.suffix_cons_iff]
  refine or_iff_right fun heq => ?_
  exact hl t (List.cons.inj heq).1.symm

/-- A panic drops an exclusive guard. -/
lemma panickedUnder_released {t : Tid} :
    PanickedUnder (.did t (.released .exclusive true) :: tr) ↔
      tookUnwinding t tr = false ∨ PanickedUnder tr := by
  constructor
  · rintro ⟨u, past, hs, hu⟩
    rcases List.suffix_cons_iff.mp hs with heq | hs
    · obtain ⟨hl, rfl⟩ := List.cons.inj heq
      cases hl
      exact .inl hu
    · exact .inr ⟨u, past, hs, hu⟩
  · rintro (ht | ⟨u, past, hs, hu⟩)
    · exact ⟨t, tr, List.suffix_rfl, ht⟩
    · exact ⟨u, past, hs.trans (List.suffix_cons _ _), hu⟩

/-- **A lock is poisoned exactly if it records poisoning and a panic has dropped an exclusive guard
whose thread was not unwinding when it was taken.**

**Proof sketch.** Induction on the run. Only the drop of an exclusive guard by a panic can set the
marker, and what the guard remembers is told by the trace (`unwinding_eq`). -/
lemma poisoned_iff (h : Run b v₀ tr c) :
    c.mem.poisoned = true ↔ b.poisons = true ∧ PanickedUnder tr := by
  refine Run.induct (I := fun tr m _ => m.poisoned = true ↔ b.poisons = true ∧ PanickedUnder tr)
    ?_ ?_ ?_ h
  · simp [Mem.new, PanickedUnder]
  · intro tr m pc t o d p hr hi hf
    rw [effect_poisoned]
    split
    · rw [panickedUnder_released, ← unwinding_eq hr t, Bool.or_eq_true, hi]
      cases b.poisons <;> simp [or_comm]
    · rename_i hd
      rw [hi, panickedUnder_cons]
      intro u hl
      cases hl
      exact hd rfl
  · intro tr m pc t x p hr hi hj
    rw [hi, panickedUnder_cons]
    simp

/-- A closure that panics in a destructor does not poison the lock if its thread was unwinding when it
took the lock, although what it wrote stays. -/
example : (Lts.play (threads .stdMutex ℕ ℕ Bool).step (start ℕ ℕ Bool 0, [])
    (.choose false (.call (.withWrite fun _ => (7, none))) ::
      List.replicate 4 (.run false ⟨true, false, true⟩))).map
        (fun s => (s.1.mem.value, s.1.mem.poisoned)) = some (7, false) := by
  decide

/-- Tokio locks do not record poisoning. -/
lemma poisons_of_isAsync (hb : b.isAsync = true) : b.poisons = false := by
  cases b <;> first | rfl | cases hb

/-- The program counter belongs to a future. -/
def Pc.isFuture : Pc σ ρ → Bool
  | .future _ | .pending _ | .poll _ _ | .leave => true
  | _ => false

/-- Only a future goes on as a future. -/
lemma isFuture_of_fire {m : Mem σ Tid} {t : Tid} {o : World} {p p' : Pc σ ρ} {d : Did σ ρ}
    (h : fire b m t o p = some (d, p')) (hp' : p'.isFuture = true) : p.isFuture = true := by
  have hentered : ∀ (op : Op σ ρ) md, (op.entered md).isFuture = false := by
    intro op md
    cases op <;> rfl
  cases p with
  | poll => rfl
  | acquire op | parked op | tryAcquire op =>
    simp only [fire] at h
    split at h <;> cases h
    · split at hp'
      · cases hp'
      · rw [hentered] at hp'
        cases hp'
    all_goals cases hp'
  | reading | writing =>
    cases h
    split at hp' <;> cases hp'
  | _ =>
    cases h
    all_goals cases hp'

/-- The operations of a lock that is not asynchronous are no futures.

**Proof sketch.** Induction on the run. Only a call on an asynchronous lock begins as a future, and only
a future goes on as one (`isFuture_of_fire`). -/
lemma isAsync_of_isFuture (h : Run b v₀ tr c) (t : Tid) (ht : (c.pc t).isFuture = true) :
    b.isAsync = true := by
  revert t
  refine Run.induct (I := fun _ _ pc => ∀ t, (pc t).isFuture = true → b.isAsync = true) ?_ ?_ ?_ h
  · intro t ht
    cases ht
  · intro tr m pc t o d p hr hi hf u hu
    by_cases hut : u = t
    · subst hut
      rw [Function.update_self] at hu
      exact hi u (isFuture_of_fire hf hu)
    · rw [Function.update_of_ne hut] at hu
      exact hi u hu
  · intro tr m pc t x p hr hi hj u hu
    by_cases hut : u = t
    · subst hut
      rw [Function.update_self] at hu
      rcases jump_cases hj with ⟨op, -, -, -, rfl⟩ | ⟨op, hp, -⟩ | ⟨op, hp, -⟩ |
        ⟨md, -, ⟨f, -, rfl⟩ | ⟨f, -, -, rfl⟩ | ⟨-, rfl⟩ | ⟨-, rfl⟩⟩
      · rcases begin_cases b op with ⟨-, h⟩ | ⟨-, hb, -⟩ | ⟨-, -, h⟩
        · rw [h] at hu
          cases hu
        · exact hb
        · rw [h] at hu
          cases hu
      · exact hi u (by rw [hp]; rfl)
      · exact hi u (by rw [hp]; rfl)
      all_goals cases hu
    · rw [Function.update_of_ne hut] at hu
      exact hi u hu

/-- An activity that cannot get past the marker: it is about to see it, or has seen it. -/
def Pc.Barred : Pc σ ρ → Prop
  | .idle | .acquire _ | .parked _ | .tryAcquire _ | .unwind _ | .panicked | .done (.error _) |
    .release _ (.error _) => True
  | _ => False

/-- An operation of a lock that records poisoning begins where it will see the marker. -/
lemma barred_begin (hb : b.poisons = true) (op : Op σ ρ) : (op.begin b).Barred := by
  rcases begin_cases b op with ⟨-, h⟩ | ⟨-, hasync, -⟩ | ⟨-, -, h⟩
  · rw [h]
    trivial
  · rw [poisons_of_isAsync hasync] at hb
    cases hb
  · rw [h]
    trivial

/-- A barred activity makes no choice but to call an operation. -/
lemma barred_of_jump {p p' : Pc σ ρ} {x : Choice σ ρ} (hb : b.poisons = true) (hp : p.Barred)
    (h : jump b p x = some p') : p'.Barred := by
  rcases jump_cases h with ⟨op, -, -, -, rfl⟩ | ⟨op, rfl, -⟩ | ⟨op, rfl, -⟩ | ⟨md, rfl, -⟩
  · exact barred_begin hb op
  all_goals exact hp.elim

/-- **Nobody gets past the marker.** On a poisoned lock a barred activity stays barred, begins no
closure, and returns nothing but an error. -/
lemma barred_of_fire {m : Mem σ Tid} {t : Tid} {o : World} {p p' : Pc σ ρ} {d : Did σ ρ}
    (hm : m.poisoned = true) (hp : p.Barred) (h : fire b m t o p = some (d, p')) :
    p'.Barred ∧ d.saw = none ∧ ∀ out, d = .returned out → ∃ e, out = .error e := by
  cases p with
  | acquire op | parked op | tryAcquire op =>
    simp only [fire, hm] at h
    split at h <;> cases h <;> exact ⟨trivial, rfl, by simp⟩
  | unwind | panicked =>
    cases h
    exact ⟨trivial, rfl, by simp⟩
  | release md out =>
    cases h
    cases out with
    | error e => exact ⟨trivial, rfl, by simp⟩
    | _ => exact hp.elim
  | done out =>
    cases h
    cases out with
    | error e =>
      refine ⟨trivial, rfl, fun out hout => ?_⟩
      cases hout
      exact ⟨e, rfl⟩
    | _ => exact hp.elim
  | idle => cases h
  | _ => exact hp.elim

/-- What is known after a lock was poisoned: `later` is what happened since. -/
structure Frozen (later past : List (Label σ ρ Tid)) (v₀ : σ) (m : Mem σ Tid) (pc : Tid → Pc σ ρ) :
    Prop where
  /-- The lock is still poisoned. -/
  poisoned : m.poisoned = true
  /-- The value is the one at the time of the panic. -/
  value : m.value = replay v₀ past
  /-- No closure began or ended since. -/
  no_run : ∀ u d, .did u d ∈ later → d.saw = none
  /-- Whoever got the lock since saw the marker. -/
  seen : ∀ u md poisoned panicking, .did u (.acquired md poisoned panicking) ∈ later → poisoned = true
  /-- An activity is barred, or a call that had run its closure before is about to return. -/
  barred : ∀ u, (pc u).Barred ∨ ∃ out, pc u = .done out
  /-- An activity that called an operation since is barred. -/
  barred_of_called : ∀ u x, .chose u x ∈ later → (pc u).Barred

/-- A panic that drops an exclusive guard which was not taken while unwinding freezes the lock.

**Proof sketch.** The activity that drops its guard has the only guard, so nobody else runs a closure or
is about to hand one out. The futures are excluded because a lock that records poisoning is not
asynchronous. -/
lemma frozen_of_released {m : Mem σ Tid} {pc : Tid → Pc σ ρ} {t : Tid} {o : World} {p : Pc σ ρ}
    (hb : b.poisons = true) (h : Run b v₀ tr ⟨m, pc⟩) (ht : tookUnwinding t tr = false)
    (hf : fire b m t o (pc t) = some (.released .exclusive true, p)) :
    Frozen [] tr v₀ (effect b m t (.released .exclusive true : Did σ ρ)) (Function.update pc t p) := by
  have hmode : (pc t).mode = some .exclusive := (fire_allows hf).1
  have hunwinding : m.unwinding t = false := (unwinding_eq h t).trans ht
  refine ⟨by simp [effect, hb, hunwinding], ?_, by simp, by simp, ?_, by simp⟩
  · rw [effect_value]
    exact value_eq_replay h
  · intro u
    by_cases hut : u = t
    · subst hut
      rw [Function.update_self]
      cases hp : pc u <;> rw [hp] at hf hmode <;> first | cases hf | cases hmode
      exact .inl trivial
    · rw [Function.update_of_ne hut]
      -- nobody else has a guard beside the exclusive one
      have hnone : ∀ md, (pc u).mode ≠ some md := fun md hmd => hut (exclusive_alone h hmode hmd)
      cases hp : pc u with
      | done out => exact .inr ⟨out, rfl⟩
      | idle | acquire | parked | tryAcquire | panicked => exact .inl trivial
      | future | pending | poll | leave =>
        have hfuture : (pc u).isFuture = true := by
          rw [hp]
          rfl
        have hasync := isAsync_of_isFuture h u hfuture
        rw [poisons_of_isAsync hasync] at hb
        cases hb
      | _ =>
        rw [hp] at hnone
        exact absurd rfl (hnone _)

/-- A choice leaves a frozen lock as it is. -/
lemma Frozen.chose {later past : List (Label σ ρ Tid)} {m : Mem σ Tid} {pc : Tid → Pc σ ρ} {t : Tid}
    {x : Choice σ ρ} {p : Pc σ ρ} (hb : b.poisons = true) (h : Frozen later past v₀ m pc)
    (hj : jump b (pc t) x = some p) :
    Frozen (.chose t x :: later) past v₀ m (Function.update pc t p) := by
  have hp : p.Barred := by
    rcases h.barred t with ht | ⟨out, hout⟩
    · exact barred_of_jump hb ht hj
    · rw [hout] at hj
      cases hj
  refine ⟨h.poisoned, h.value, ?_, ?_, ?_, fun u y hy => ?_⟩
  · simpa using h.no_run
  · simpa using h.seen
  · exact (Function.forall_update_iff pc fun _ q => q.Barred ∨ ∃ out, q = .done out).mpr
      ⟨.inl hp, fun u _ => h.barred u⟩
  · by_cases hut : u = t
    · subst hut
      rw [Function.update_self]
      exact hp
    · rw [Function.update_of_ne hut]
      exact h.barred_of_called u y (by simpa [hut] using hy)

/-- A report leaves a frozen lock as it is.

**Proof sketch.** At a barred place an acquisition finds the marker and runs nothing, and whoever has
seen the marker only releases the lock and returns. A call that had run its closure before has nothing
left but its return. -/
lemma Frozen.did {later past : List (Label σ ρ Tid)} {m : Mem σ Tid} {pc : Tid → Pc σ ρ} {t : Tid}
    {o : World} {d : Did σ ρ} {p : Pc σ ρ} (h : Frozen later past v₀ m pc)
    (hf : fire b m t o (pc t) = some (d, p)) :
    Frozen (.did t d :: later) past v₀ (effect b m t d) (Function.update pc t p) := by
  have hp : p.Barred ∧ d.saw = none := by
    rcases h.barred t with ht | ⟨out, hout⟩
    · obtain ⟨hp, hd, -⟩ := barred_of_fire h.poisoned ht hf
      exact ⟨hp, hd⟩
    · rw [hout] at hf
      cases hf
      exact ⟨trivial, rfl⟩
  obtain ⟨hp, hd⟩ := hp
  refine ⟨?_, ?_, ?_, ?_, ?_, fun u y hy => ?_⟩
  · rw [effect_poisoned, h.poisoned]
    split <;> simp
  · rw [effect_value, ← h.value]
    cases d with
    | wrote => cases hd
    | _ => rfl
  · intro u d' hd'
    rcases List.mem_cons.mp hd' with heq | hd'
    · cases heq
      exact hd
    · exact h.no_run u d' hd'
  · intro u md poisoned panicking hd'
    rcases List.mem_cons.mp hd' with heq | hd'
    · cases heq
      exact (fire_allows hf).2.2.2.trans h.poisoned
    · exact h.seen u md poisoned panicking hd'
  · exact (Function.forall_update_iff pc fun _ q => q.Barred ∨ ∃ out, q = .done out).mpr
      ⟨.inl hp, fun u _ => h.barred u⟩
  · by_cases hut : u = t
    · subst hut
      rw [Function.update_self]
      exact hp
    · rw [Function.update_of_ne hut]
      exact h.barred_of_called u y (by simpa using hy)

/-- **A poisoned lock stays frozen.** -/
lemma frozen_of_run {later past : List (Label σ ρ Tid)} {t : Tid} (hb : b.poisons = true)
    (ht : tookUnwinding t past = false)
    (h : Run b v₀ (later ++ .did t (.released .exclusive true) :: past) c) :
    Frozen later past v₀ c.mem c.pc := by
  refine Run.induct_since (I := fun later m pc => Frozen later past v₀ m pc) ?_ ?_ ?_ h
  · intro m' pc' hr
    obtain ⟨m, pc, o, p, hpast, hf, rfl, rfl⟩ := hr.last_did
    exact frozen_of_released hb hpast ht hf
  · intro later m pc u o d p hr hi hf
    exact hi.did hf
  · intro later m pc u x p hr hi hj
    exact hi.chose hb hj

/-- **Poisoning is exact and final.** A lock is poisoned exactly if its type records poisoning and a
panic has dropped an exclusive guard whose thread was not unwinding when it was taken. From that panic
on no closure begins or ends, whoever gets the lock sees the marker, the value stays what it was, and
every operation called since panics or returns an error.

**Proof sketch.** The marker is a function of the trace, by induction on the run (`poisoned_iff`). At
the panic the exclusive guard was the only one, so everybody else was in user code, was about to return
or had still to take the lock. From there on each of them is barred by the marker (`Frozen`), and a
barred activity stays so (`barred_of_fire`). -/
theorem poisoning_exact (h : Run b v₀ tr c) :
    (c.mem.poisoned = true ↔ b.poisons = true ∧ PanickedUnder tr) ∧
    ∀ later past t, tr = later ++ .did t (.released .exclusive true) :: past →
      tookUnwinding t past = false → b.poisons = true →
      c.mem.value = replay v₀ past ∧ (∀ u d, .did u d ∈ later → d.saw = none) ∧
      (∀ u md poisoned panicking, .did u (.acquired md poisoned panicking) ∈ later →
        poisoned = true) ∧
      ∀ u x l₁ l₂ out, later = l₂ ++ .chose u x :: l₁ → .did u (.returned out) ∈ l₂ →
        ∃ e, out = .error e := by
  refine ⟨poisoned_iff h, ?_⟩
  rintro later past t rfl ht hb
  have hfrozen := frozen_of_run hb ht h
  refine ⟨hfrozen.value, hfrozen.no_run, hfrozen.seen, ?_⟩
  rintro u x l₁ l₂ out rfl hout
  obtain ⟨new, old, rfl⟩ := List.append_of_mem hout
  have hs : .did u (.returned out) ::
      ((old ++ .chose u x :: l₁) ++ .did t (.released .exclusive true) :: past) <:+
      ((new ++ .did u (.returned out) :: old) ++ .chose u x :: l₁) ++
        .did t (.released .exclusive true) :: past := by
    simp
  obtain ⟨m, pc, o, p, hr, hf⟩ := Run.exists_fire h hs
  have hfrozen' := frozen_of_run hb ht hr
  have hbarred := hfrozen'.barred_of_called u x (by simp)
  exact (barred_of_fire hfrozen'.poisoned hbarred hf).2.2 out rfl

/-- A reading closure panics under a standard mutex. The mutex is poisoned by it, and a `try` operation
returns the error and leaves the value alone. -/
theorem poisoning_exact_mutex :
    ∃ (later past : List (Label ℕ Unit Bool)) (c : Threads.Conf (Mem ℕ Bool) Bool (Pc ℕ Unit)),
      Run .stdMutex 0 (later ++ .did false (.released .exclusive true) :: past) c ∧
      .did true (.returned (.error .poisoned)) ∈ later ∧ c.mem.poisoned = true ∧ c.mem.value = 0 := by
  let later : List (Label ℕ Unit Bool) :=
    [.did true (.returned (.error .poisoned)), .did true (.released .exclusive false),
      .did true (.acquired .exclusive true false),
      .chose true (.call (.tryWithWrite fun v => (v + 1, some ()))), .did false .unwound]
  let past : List (Label ℕ Unit Bool) :=
    [.did false (.didRead (fun _ => none) 0), .did false (.began 0),
      .did false (.acquired .exclusive false false), .chose false (.call (.withRead fun _ => none))]
  have hr : ∃ c, Run .stdMutex 0 (later ++ .did false (.released .exclusive true) :: past) c :=
    ⟨_, Lts.Run.nil.cons (.choose false (.call (.withRead fun _ => none))) rfl
      |>.cons (.run false .quiet) rfl |>.cons (.run false .quiet) rfl
      |>.cons (.run false .quiet) rfl |>.cons (.run false .quiet) rfl
      |>.cons (.run false .quiet) rfl
      |>.cons (.choose true (.call (.tryWithWrite fun v => (v + 1, some ())))) rfl
      |>.cons (.run true .quiet) rfl |>.cons (.run true .quiet) rfl
      |>.cons (.run true .quiet) rfl⟩
  obtain ⟨c, hr⟩ := hr
  obtain ⟨hiff, hafter⟩ := poisoning_exact hr
  exact ⟨later, past, c, hr, by simp [later],
    hiff.mpr ⟨rfl, false, past, List.suffix_append later _, rfl⟩, (hafter _ _ _ rfl rfl rfl).1⟩

end QubitLock.Lock
