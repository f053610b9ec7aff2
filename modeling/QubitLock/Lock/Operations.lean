import QubitLock.Lock.Poison

set_option relaxedAutoImplicit false
set_option autoImplicit false

/-!
# The operations

What a single call does is told by its reports, whatever the other activities do in between. A call
that returns a value has taken the lock once, in the mode of its access, has run its closure once
under it, and has released it. A call that returns an error or is cancelled has run nothing.

## Main definitions

* `Op.Runs` — a report is the run of the closure of an operation.
* `Op.Waited`, `Op.Locked`, `Op.Ran` — the reports of a call that waits, that got the lock, and that
  ran its closure.
* `Op.Returned`, `Op.Unwound` — the reports of a call that returns or panics.
* `Within` — the reports of a call at each program counter.

## Main results

* `within_of_run` — every activity is where its reports say.
* `operations_linearizable` — the operations take effect atomically, exactly once.
* `try_operations_decided` — the operations that never wait.
* `cancellation_harmless` — cancelled futures have done nothing.
-/

namespace QubitLock.Lock

variable {σ ρ Tid : Type}

/-- The report is the end of a closure. -/
def Did.isRun : Did σ ρ → Bool
  | .didRead _ _ | .wrote _ _ => true
  | _ => false

/-- The operation that a choice calls. -/
def Choice.called : Choice σ ρ → Option (Op σ ρ)
  | .call op => some op
  | _ => none

namespace Op

/-- The operations that hand out a guard. -/
def takesGuard : Op σ ρ → Bool
  | lock | tryLock | read | write | tryRead | tryWrite => true
  | withRead _ | withWrite _ | tryWithRead _ | tryWithWrite _ => false

/-- The report is a run of the closure of the operation, with result `r`. -/
def Runs : Op σ ρ → Did σ ρ → Option ρ → Prop
  | withRead f, .didRead g v, r | tryWithRead f, .didRead g v, r => g = f ∧ r = f v
  | withWrite f, .wrote g v, r | tryWithWrite f, .wrote g v, r => g = f ∧ r = (f v).2
  | _, _, _ => False

/-- What a call may have reported before it got the lock: it joined the queue, and its future gave up
some polls. -/
def Waited (b : Backend) (op : Op σ ρ) (ds : List (Did σ ρ)) : Prop :=
  (∀ d ∈ ds, d = .queued ∨ d = .yielded) ∧ (op.isTry = true → ds = []) ∧
    (b.isAsync = false → ds = [] ∨ ds = [.queued])

/-- The reports of a call that has just got the lock, newest first. -/
def Locked (b : Backend) (op : Op σ ρ) (ds : List (Did σ ρ)) : Prop :=
  ∃ panicking ds', ds = .acquired (b.mode op.access) false panicking :: ds' ∧ op.Waited b ds'

/-- The reports of a call that has run its closure, with result `r`: the closure ended on the value
that it saw when it began. -/
def Ran (b : Backend) (op : Op σ ρ) (ds : List (Did σ ρ)) (r : Option ρ) : Prop :=
  ∃ run v ds', ds = run :: .began v :: ds' ∧ run.saw = some v ∧ op.Runs run r ∧ op.Locked b ds'

/-- The reports of a call that returns `out`. -/
def Returned (b : Backend) (op : Op σ ρ) (ds : List (Did σ ρ)) : Outcome ρ → Prop
  | .value r => ∃ ds', ds = .released (b.mode op.access) false :: ds' ∧ op.Ran b ds' (some r)
  | .guard => op.takesGuard = true ∧ op.Locked b ds
  | .error .wouldBlock => op.isTry = true ∧ ds = [.refused]
  | .error .poisoned => op.isTry = true ∧ b.poisons = true ∧ ∃ panicking,
      ds = [.released (b.mode op.access) false, .acquired (b.mode op.access) true panicking]

/-- The reports of a call that panics: its closure panicked, or the lock was poisoned, or the user of
its guard panicked. -/
def Unwound (b : Backend) (op : Op σ ρ) (ds : List (Did σ ρ)) : Prop :=
  (∃ ds', ds = .released (b.mode op.access) true :: ds' ∧ op.Ran b ds' none) ∨
  (op.isTry = false ∧ b.poisons = true ∧ ∃ panicking ds', ds = .released (b.mode op.access) true ::
    .acquired (b.mode op.access) true panicking :: ds' ∧ op.Waited b ds') ∨
  (op.takesGuard = true ∧ .returned .guard ∈ ds)

/-- A call that begins has not waited. -/
lemma waited_nil (b : Backend) (op : Op σ ρ) : op.Waited b [] := by
  simp [Waited]

/-- A blocking call waits once. -/
lemma waited_queued {b : Backend} {op : Op σ ρ} (ht : op.isTry = false) :
    op.Waited b [.queued] := by
  simp [Waited, ht]

/-- A future goes on waiting. -/
lemma Waited.cons {b : Backend} {op : Op σ ρ} {ds : List (Did σ ρ)} {d : Did σ ρ}
    (h : op.Waited b ds) (ht : op.isTry = false) (ha : b.isAsync = true)
    (hd : d = .queued ∨ d = .yielded) : op.Waited b (d :: ds) := by
  refine ⟨?_, by simp [ht], by simp [ha]⟩
  intro d' hd'
  rcases List.mem_cons.mp hd' with rfl | hd'
  · exact hd
  · exact h.1 d' hd'

end Op

/-- The reports `ds` of a call at each program counter. -/
def Within (b : Backend) (op : Op σ ρ) (ds : List (Did σ ρ)) : Pc σ ρ → Prop
  | .idle => (∃ out, .returned out ∈ ds) ∨ .unwound ∈ ds ∨ op.Waited b ds ∨
      ∃ ds', ds = .left :: ds' ∧ op.Waited b ds'
  | .future op' | .pending op' | .poll op' _ =>
    op' = op ∧ op.isTry = false ∧ b.isAsync = true ∧ op.Waited b ds
  | .leave => op.isTry = false ∧ b.isAsync = true ∧ op.Waited b ds
  | .acquire op' => op' = op ∧ op.isTry = false ∧ b.isAsync = false ∧ ds = []
  | .parked op' => op' = op ∧ op.isTry = false ∧ b.isAsync = false ∧ ds = [.queued]
  | .tryAcquire op' => op' = op ∧ op.isTry = true ∧ ds = []
  | .runRead f md => md = b.mode op.access ∧ (∀ v, op.Runs (.didRead f v) (f v)) ∧ op.Locked b ds
  | .reading f v md => md = b.mode op.access ∧ op.Runs (.didRead f v) (f v) ∧
      ∃ ds', ds = .began v :: ds' ∧ op.Locked b ds'
  | .runWrite f =>
    .exclusive = b.mode op.access ∧ (∀ v, op.Runs (.wrote f v) (f v).2) ∧ op.Locked b ds
  | .writing f v => .exclusive = b.mode op.access ∧ op.Runs (.wrote f v) (f v).2 ∧
      ∃ ds', ds = .began v :: ds' ∧ op.Locked b ds'
  | .release md out => op.Returned b (.released md false :: ds) out
  | .done out => op.Returned b ds out
  | .unwind md => op.Unwound b (.released md true :: ds)
  | .panicked => op.Unwound b ds
  | .guardDone _ => op.Returned b ds .guard
  | .held _ | .deref _ _ | .derefMut _ | .drop _ => op.takesGuard = true ∧ .returned .guard ∈ ds

/-- A call that has just got the lock. -/
lemma within_entered {b : Backend} {op : Op σ ρ} {ds : List (Did σ ρ)} (panicking : Bool)
    (h : op.Waited b ds) : Within b op (.acquired (b.mode op.access) false panicking :: ds)
      (op.entered (b.mode op.access)) := by
  have hlocked : op.Locked b (.acquired (b.mode op.access) false panicking :: ds) :=
    ⟨panicking, ds, rfl, h⟩
  cases op with
  | withRead f | tryWithRead f => exact ⟨rfl, fun v => ⟨rfl, rfl⟩, hlocked⟩
  | withWrite f | tryWithWrite f => exact ⟨rfl, fun v => ⟨rfl, rfl⟩, hlocked⟩
  | _ => exact ⟨rfl, hlocked⟩

/-- A waiting call that has just got the lock goes on, or it panics at the marker. -/
lemma within_unwrapped {b : Backend} {op : Op σ ρ} {ds : List (Did σ ρ)} {poisoned : Bool}
    (panicking : Bool) (hp : poisoned = true → b.poisons = true) (ht : op.isTry = false)
    (h : op.Waited b ds) : Within b op (.acquired (b.mode op.access) poisoned panicking :: ds)
      (if poisoned then .unwind (b.mode op.access) else op.entered (b.mode op.access)) := by
  cases poisoned with
  | true => exact .inr (.inl ⟨ht, hp rfl, panicking, ds, rfl, h⟩)
  | false => exact within_entered panicking h

/-- A call that begins has reported nothing. -/
lemma within_begin (b : Backend) (op : Op σ ρ) : Within b op [] (op.begin b) := by
  rcases begin_cases b op with ⟨ht, h⟩ | ⟨ht, ha, h⟩ | ⟨ht, ha, h⟩ <;> rw [h]
  · exact ⟨rfl, ht, rfl⟩
  · exact ⟨rfl, ht, ha, op.waited_nil b⟩
  · exact ⟨rfl, ht, ha, rfl⟩

/-- A choice that calls nothing goes on with the call. -/
lemma within_jump {b : Backend} {op : Op σ ρ} {ds : List (Did σ ρ)} {p p' : Pc σ ρ} {x : Choice σ ρ}
    (hj : jump b p x = some p') (hx : x.called = none) (h : Within b op ds p) :
    Within b op ds p' := by
  rcases jump_cases hj with ⟨op', -, rfl, -, -⟩ | ⟨op', rfl, ⟨-, rfl⟩ | ⟨-, rfl⟩⟩ |
    ⟨op', rfl, ⟨-, rfl⟩ | ⟨-, rfl⟩⟩ | ⟨md, rfl, ⟨f, -, rfl⟩ | ⟨f, rfl, -, rfl⟩ | ⟨-, rfl⟩ | ⟨-, rfl⟩⟩
  · cases hx
  · exact h
  · exact .inr (.inr (.inl h.2.2.2))
  · exact h
  · exact h.2
  · exact h
  · exact h
  · exact h
  · exact .inr (.inr ⟨h.1, List.mem_cons_of_mem _ h.2⟩)

variable [DecidableEq Tid]

/-- **One step of a call**: its reports stay what they should be.

**Proof sketch.** One case for each place. The reports of a call grow in one order: those of waiting for
the lock, the acquisition, the beginning and the end of its closure, and the release; each place says
how far the call is. -/
lemma within_fire {b : Backend} {m : Mem σ Tid} {t : Tid} {o : World} {op : Op σ ρ}
    {ds : List (Did σ ρ)} {p p' : Pc σ ρ} {d : Did σ ρ} (hm : m.poisoned = true → b.poisons = true)
    (hf : fire b m t o p = some (d, p')) (h : Within b op ds p) : Within b op (d :: ds) p' := by
  cases p with
  | acquire op' =>
    obtain ⟨rfl, ht, ha, rfl⟩ := h
    simp only [fire] at hf
    split at hf <;> cases hf
    · exact within_unwrapped o.panicking hm ht (op'.waited_nil b)
    · exact ⟨rfl, ht, ha, rfl⟩
  | parked op' =>
    obtain ⟨rfl, ht, ha, rfl⟩ := h
    simp only [fire] at hf
    split at hf <;> cases hf
    exact within_unwrapped o.panicking hm ht (Op.waited_queued ht)
  | poll op' queued =>
    obtain ⟨rfl, ht, ha, hw⟩ := h
    simp only [fire] at hf
    split at hf
    · cases hf
      have hw' := hw.cons ht ha (.inr rfl)
      cases queued <;> exact ⟨rfl, ht, ha, hw'⟩
    · split at hf <;> cases hf
      · have hp : m.poisoned = false := by
          rw [← Bool.not_eq_true]
          intro hp
          simpa [poisons_of_isAsync ha] using hm hp
        rw [hp]
        exact within_entered o.panicking hw
      · exact ⟨rfl, ht, ha, hw.cons ht ha (.inl rfl)⟩
  | leave =>
    cases hf
    exact .inr (.inr (.inr ⟨ds, rfl, h.2.2⟩))
  | tryAcquire op' =>
    obtain ⟨rfl, ht, rfl⟩ := h
    simp only [fire] at hf
    split at hf <;> cases hf
    · cases hp : m.poisoned with
      | true => exact ⟨ht, hm hp, o.panicking, rfl⟩
      | false => exact within_entered o.panicking (op'.waited_nil b)
    · exact ⟨ht, rfl⟩
  | runRead f md | runWrite f =>
    obtain ⟨hmode, hruns, hlocked⟩ := h
    cases hf
    exact ⟨hmode, hruns m.value, ds, rfl, hlocked⟩
  | reading f v md =>
    obtain ⟨rfl, hruns, ds', rfl, hlocked⟩ := h
    cases hf
    cases hr : f v with
    | some r => exact ⟨_, rfl, _, v, ds', rfl, rfl, hr ▸ hruns, hlocked⟩
    | none => exact .inl ⟨_, rfl, _, v, ds', rfl, rfl, hr ▸ hruns, hlocked⟩
  | writing f v =>
    obtain ⟨hmode, hruns, ds', rfl, hlocked⟩ := h
    cases hf
    cases hr : (f v).2 with
    | some r => exact ⟨_, by rw [hmode], _, v, ds', rfl, rfl, hr ▸ hruns, hlocked⟩
    | none => exact .inl ⟨_, by rw [hmode], _, v, ds', rfl, rfl, hr ▸ hruns, hlocked⟩
  | release | unwind =>
    cases hf
    exact h
  | done out =>
    cases hf
    exact .inl ⟨out, List.mem_cons_self⟩
  | panicked =>
    cases hf
    exact .inr (.inl List.mem_cons_self)
  | guardDone md =>
    cases hf
    exact ⟨h.1, List.mem_cons_self⟩
  | deref | derefMut =>
    cases hf
    exact ⟨h.1, List.mem_cons_of_mem _ h.2⟩
  | drop md =>
    cases hf
    exact .inl ⟨.guard, List.mem_cons_of_mem _ h.2⟩
  | idle | future | pending | held => cases hf

variable {b : Backend} {v₀ : σ} {tr : List (Label σ ρ Tid)}
  {c : Threads.Conf (Mem σ Tid) Tid (Pc σ ρ)}

/-- The operation that a choice calls begins. -/
lemma eq_begin_of_called {p p' : Pc σ ρ} {x : Choice σ ρ} {op : Op σ ρ} (hj : jump b p x = some p')
    (hx : x.called = some op) : p' = op.begin b := by
  rcases jump_cases hj with ⟨op', -, rfl, -, rfl⟩ | ⟨op', -, ⟨rfl, -⟩ | ⟨rfl, -⟩⟩ |
    ⟨op', -, ⟨rfl, -⟩ | ⟨rfl, -⟩⟩ | ⟨md, -, ⟨f, rfl, -⟩ | ⟨f, -, rfl, -⟩ | ⟨rfl, -⟩ | ⟨rfl, -⟩⟩ <;>
    cases hx
  rfl

/-- **Every activity is where the reports of its latest call say.**

**Proof sketch.** By the rule for calls, from the beginning of an operation (`within_begin`), the
choices that call nothing (`within_jump`) and the steps (`within_fire`). -/
theorem within_of_run (h : Run b v₀ tr c) (t : Tid) {op : Op σ ρ} {ds : List (Did σ ρ)}
    (hcall : Threads.callOf Choice.called t tr = some (op, ds)) : Within b op ds (c.pc t) := by
  refine Threads.Run.calls (V := Within b) ?_ within_jump ?_ h t hcall
  · intro p x p' op hj hx
    rw [eq_begin_of_called hj hx]
    exact within_begin b op
  · intro tr m pc t o d p op ds hr hf hw
    exact within_fire (fun hp => ((poisoned_iff hr).mp hp).1) hf hw

/-- An activity that is not in user code has made a call. -/
lemma exists_call (h : Run b v₀ tr c) {t : Tid} (ht : c.pc t ≠ .idle) :
    ∃ op ds, Threads.callOf Choice.called t tr = some (op, ds) := by
  refine (Threads.Run.exists_call (S := (· = .idle)) (fun _ => rfl) ?_ ?_ h t).resolve_left ht
  · rintro p x p' hj rfl
    rcases jump_cases hj with ⟨op', -, rfl, -, rfl⟩ | ⟨op', hp, -⟩ | ⟨op', hp, -⟩ | ⟨md, hp, -⟩
    · rfl
    all_goals cases hp
  · rintro m t o p d p' hf rfl
    cases hf

/-- The reports of a call at a step of its activity. -/
lemma within_of_fire {m : Mem σ Tid} {pc : Tid → Pc σ ρ} {t : Tid} {o : World} {d : Did σ ρ}
    {p : Pc σ ρ} (h : Run b v₀ tr ⟨m, pc⟩) (hf : fire b m t o (pc t) = some (d, p)) :
    ∃ op ds, Threads.callOf Choice.called t tr = some (op, ds) ∧ Within b op ds (pc t) := by
  have hne : pc t ≠ .idle := by
    intro hidle
    rw [hidle] at hf
    cases hf
  obtain ⟨op, ds, hcall⟩ := exists_call h hne
  exact ⟨op, ds, hcall, within_of_run h t hcall⟩

/-- The activity is about to try the raw lock. -/
def Pc.acquires : Pc σ ρ → Bool
  | .acquire _ | .parked _ | .poll _ _ | .tryAcquire _ => true
  | _ => false

/-- A try at the raw lock is neither the run of a closure nor the end of a call. -/
lemma acquiring_of_fire {m : Mem σ Tid} {t : Tid} {o : World} {d : Did σ ρ} {p p' : Pc σ ρ}
    (hp : p.acquires = true) (hf : fire b m t o p = some (d, p')) :
    d.isRun = false ∧ d ≠ .unwound ∧ ∀ out, d ≠ .returned out := by
  cases p with
  | acquire | parked | tryAcquire =>
    simp only [fire] at hf
    split at hf <;> cases hf <;> simp [Did.isRun]
  | poll =>
    simp only [fire] at hf
    split at hf
    · cases hf
      simp [Did.isRun]
    · split at hf <;> cases hf <;> simp [Did.isRun]
  | _ => cases hp

/-- A call that returns has reported what it should. -/
lemma returned_of_fire {m : Mem σ Tid} {pc : Tid → Pc σ ρ} {t : Tid} {o : World}
    {out : Outcome ρ} {p : Pc σ ρ} (h : Run b v₀ tr ⟨m, pc⟩)
    (hf : fire b m t o (pc t) = some (.returned out, p)) :
    ∃ op ds, Threads.callOf Choice.called t tr = some (op, ds) ∧ op.Returned b ds out := by
  obtain ⟨op, ds, hcall, hw⟩ := within_of_fire h hf
  refine ⟨op, ds, hcall, ?_⟩
  cases hp : pc t <;> rw [hp] at hf hw
  case acquire | parked | poll | tryAcquire =>
    exact absurd rfl ((acquiring_of_fire rfl hf).2.2 out)
  case done | guardDone =>
    cases hf
    exact hw
  all_goals cases hf

/-- A call that panics has reported what it should. -/
lemma unwound_of_fire {m : Mem σ Tid} {pc : Tid → Pc σ ρ} {t : Tid} {o : World} {p : Pc σ ρ}
    (h : Run b v₀ tr ⟨m, pc⟩) (hf : fire b m t o (pc t) = some (.unwound, p)) :
    ∃ op ds, Threads.callOf Choice.called t tr = some (op, ds) ∧ op.Unwound b ds := by
  obtain ⟨op, ds, hcall, hw⟩ := within_of_fire h hf
  refine ⟨op, ds, hcall, ?_⟩
  cases hp : pc t <;> rw [hp] at hf hw
  case acquire | parked | poll | tryAcquire =>
    exact absurd rfl (acquiring_of_fire rfl hf).2.1
  case panicked => exact hw
  all_goals cases hf

/-- A call that has the lock has run no closure. -/
lemma isRun_of_locked {op : Op σ ρ} {ds : List (Did σ ρ)} (h : op.Locked b ds) :
    ∀ d ∈ ds, d.isRun = false := by
  obtain ⟨panicking, ds', rfl, hw⟩ := h
  intro d hd
  rcases List.mem_cons.mp hd with rfl | hd
  · rfl
  · rcases hw.1 d hd with rfl | rfl <;> rfl

/-- A closure that ends is that of its call and ends for the first time, or it is run by user code
through a guard. -/
lemma run_of_fire {m : Mem σ Tid} {pc : Tid → Pc σ ρ} {t : Tid} {o : World} {d : Did σ ρ}
    {p : Pc σ ρ} (h : Run b v₀ tr ⟨m, pc⟩) (hf : fire b m t o (pc t) = some (d, p))
    (hd : d.isRun = true) :
    ∃ op ds, Threads.callOf Choice.called t tr = some (op, ds) ∧
      ((∃ r, op.Runs d r) ∧ (∀ d' ∈ ds, d'.isRun = false) ∨
        op.takesGuard = true ∧ .returned .guard ∈ ds) := by
  obtain ⟨op, ds, hcall, hw⟩ := within_of_fire h hf
  refine ⟨op, ds, hcall, ?_⟩
  cases hp : pc t <;> rw [hp] at hf hw
  case acquire | parked | poll | tryAcquire =>
    have hno := (acquiring_of_fire rfl hf).1
    rw [hno] at hd
    cases hd
  case reading | writing =>
    cases hf
    obtain ⟨-, hruns, ds', rfl, hlocked⟩ := hw
    refine .inl ⟨⟨_, hruns⟩, fun d' hd' => ?_⟩
    rcases List.mem_cons.mp hd' with rfl | hd'
    · rfl
    · exact isRun_of_locked hlocked d' hd'
  case deref | derefMut => exact .inr hw
  all_goals cases hf <;> cases hd

/-- **The operations take effect atomically, exactly once.** In every state of every run the
protected value is the fold of the mutating closures that ended so far, and every closure saw the fold
of those before it, when it began and still when it ended. A call that returns a value has taken the
lock in the mode of its access, run its closure once, and released the lock; a call that returns an
error has run nothing; a call that panics has run its closure once, or found the lock poisoned. Every
closure that ends is that of its own call, for the first time there, or is run by user code through a
guard that the call returned.

**Proof sketch.** A closure takes two steps, so the folds need the exclusion of writers: while a
closure runs its activity owns a guard, and nobody else changes the value (`value_of_seen`). The
reports of a call follow its program counter (`Within`), by one lemma about a step and the rule for
calls; the last three parts read the relation off at the step that reports. -/
theorem operations_linearizable (h : Run b v₀ tr c) :
    c.mem.value = replay v₀ tr ∧
    (∀ t d v past, .did t d :: past <:+ tr → d.saw = some v → v = replay v₀ past) ∧
    (∀ t out past, .did t (.returned out) :: past <:+ tr →
      ∃ op ds, Threads.callOf Choice.called t past = some (op, ds) ∧ op.Returned b ds out) ∧
    (∀ t past, .did t .unwound :: past <:+ tr →
      ∃ op ds, Threads.callOf Choice.called t past = some (op, ds) ∧ op.Unwound b ds) ∧
    ∀ t d past, .did t d :: past <:+ tr → d.isRun = true →
      ∃ op ds, Threads.callOf Choice.called t past = some (op, ds) ∧
        ((∃ r, op.Runs d r) ∧ (∀ d' ∈ ds, d'.isRun = false) ∨
          op.takesGuard = true ∧ .returned .guard ∈ ds) := by
  refine ⟨value_eq_replay h, ?_, ?_, ?_, ?_⟩
  · intro t d v past hs hv
    obtain ⟨m, pc, o, p, hr, hf⟩ := h.exists_fire hs
    rw [saw_of_fire hr hf hv]
    exact value_eq_replay hr
  · intro t out past hs
    obtain ⟨m, pc, o, p, hr, hf⟩ := h.exists_fire hs
    exact returned_of_fire hr hf
  · intro t past hs
    obtain ⟨m, pc, o, p, hr, hf⟩ := h.exists_fire hs
    exact unwound_of_fire hr hf
  · intro t d past hs hd
    obtain ⟨m, pc, o, p, hr, hf⟩ := h.exists_fire hs
    exact run_of_fire hr hf hd

/-- Two updates of a Tokio mutex, the second one in the queue while the first has the lock. -/
def contendedUpdates : List (Threads.Event Bool World (Choice ℕ ℕ) Empty) :=
  [.choose false (.call (.withWrite fun v => (v + 1, some v))), .choose false .poll,
    .choose true (.call (.withWrite fun v => (2 * v, some v))), .choose true .poll,
    .run false .quiet, .run true .quiet, .run false .quiet, .run false .quiet, .run false .quiet,
    .run false .quiet, .choose true .poll, .run true .quiet, .run true .quiet, .run true .quiet,
    .run true .quiet, .run true .quiet]

/-- In the run of `contendedUpdates` both calls return, and the value is the fold of both closures. -/
theorem operations_linearizable_contended :
    ∃ (tr : List (Label ℕ ℕ Bool)) (c : Threads.Conf (Mem ℕ Bool) Bool (Pc ℕ ℕ)),
      Run .tokioMutex 5 tr c ∧ c.mem.value = 12 ∧ c.mem.value = replay 5 tr ∧
      ∀ t out past, .did t (.returned out) :: past <:+ tr →
        ∃ op ds, Threads.callOf Choice.called t past = some (op, ds) ∧ op.Returned .tokioMutex ds out := by
  obtain ⟨tr, c, hr, hp, -⟩ := (threads .tokioMutex ℕ ℕ Bool).exists_run_of_play (start ℕ ℕ Bool 5)
    contendedUpdates (p := fun s => decide (s.1.mem.value = 12)) (by decide)
  obtain ⟨hvalue, -, hreturned, -⟩ := operations_linearizable hr
  exact ⟨tr, c, hr, by simpa using hp, hvalue, hreturned⟩

/-! ## Operations that never wait -/

/-- How many steps a `try` operation with a closure can have made at a program counter. -/
def Pc.rank : Pc σ ρ → ℕ
  | .tryAcquire _ => 0
  | .runRead _ _ | .runWrite _ => 1
  | .reading _ _ _ | .writing _ _ => 2
  | .release _ _ | .unwind _ => 3
  | .done _ | .panicked => 4
  | _ => 5

/-- The program counters of a `try` operation. -/
def Pc.OfTry (op : Op σ ρ) : Pc σ ρ → Prop
  | .tryAcquire op' => op' = op
  | .runRead _ _ | .reading _ _ _ | .runWrite _ | .writing _ _ => op.takesGuard = false
  | .guardDone _ | .held _ | .deref _ _ | .derefMut _ | .drop _ => op.takesGuard = true
  | .release _ _ | .unwind _ | .done _ | .panicked | .idle => True
  | .future _ | .pending _ | .poll _ _ | .leave | .acquire _ | .parked _ => False

/-- A `try` operation that got its guard goes on with it. -/
lemma ofTry_entered (op : Op σ ρ) (md : LockMode) :
    (op.entered md).OfTry op ∧ (op.takesGuard = false → 1 ≤ (op.entered md).rank) := by
  cases op <;> simp [Op.entered, Pc.OfTry, Pc.rank, Op.takesGuard]

/-- A `try` operation goes from one of its program counters to the next. -/
lemma ofTry_of_fire {m : Mem σ Tid} {t : Tid} {o : World} {op : Op σ ρ} {p p' : Pc σ ρ}
    {d : Did σ ρ} (hp : p.OfTry op) (hf : fire b m t o p = some (d, p')) :
    p'.OfTry op ∧ (op.takesGuard = false → p.rank < p'.rank) := by
  cases p with
  | tryAcquire op' =>
    obtain rfl : op' = op := hp
    simp only [fire] at hf
    split at hf <;> cases hf
    · split
      · exact ⟨trivial, fun _ => Nat.zero_lt_succ 2⟩
      · exact ofTry_entered op' _
    · exact ⟨trivial, fun _ => Nat.zero_lt_succ 3⟩
  | runRead | runWrite =>
    cases hf
    exact ⟨hp, fun _ => Nat.lt_succ_self 1⟩
  | reading | writing =>
    cases hf
    split <;> exact ⟨trivial, fun _ => Nat.lt_succ_self 2⟩
  | release | unwind =>
    cases hf
    exact ⟨trivial, fun _ => Nat.lt_succ_self 3⟩
  | done | panicked =>
    cases hf
    exact ⟨trivial, fun _ => Nat.lt_succ_self 4⟩
  | guardDone | deref | derefMut | drop =>
    cases hf
    have hguard : op.takesGuard = true := hp
    refine ⟨by first | exact hguard | trivial, fun hno => ?_⟩
    rw [hguard] at hno
    cases hno
  | idle | held => cases hf
  | future | pending | poll | leave | acquire | parked => exact hp.elim

/-- A choice leaves a `try` operation where its guard is. -/
lemma ofTry_of_jump {op : Op σ ρ} {p p' : Pc σ ρ} {x : Choice σ ρ} (hp : p.OfTry op)
    (hj : jump b p x = some p') (hx : x.called = none) :
    p'.OfTry op ∧ op.takesGuard = true := by
  rcases jump_cases hj with ⟨op', -, rfl, -, -⟩ | ⟨op', rfl, -⟩ | ⟨op', rfl, -⟩ |
    ⟨md, rfl, ⟨f, -, rfl⟩ | ⟨f, -, -, rfl⟩ | ⟨-, rfl⟩ | ⟨-, rfl⟩⟩
  · cases hx
  · exact hp.elim
  · exact hp.elim
  · exact ⟨hp, hp⟩
  · exact ⟨hp, hp⟩
  · exact ⟨hp, hp⟩
  · exact ⟨trivial, hp⟩

/-- **Where a `try` operation is**, and that one with a closure makes at most five steps.

**Proof sketch.** Induction on the run, in the form for calls. The call begins at its only try, and a
step leads from a place of a `try` operation to a later one (`ofTry_of_fire`). -/
lemma ofTry_of_run (h : Run b v₀ tr c) {t : Tid} {op : Op σ ρ} {ds : List (Did σ ρ)}
    (hcall : Threads.callOf Choice.called t tr = some (op, ds)) (htry : op.isTry = true) :
    (c.pc t).OfTry op ∧ (op.takesGuard = false → ds.length ≤ (c.pc t).rank) := by
  revert htry
  refine Threads.Run.calls (V := fun op ds p => op.isTry = true →
    p.OfTry op ∧ (op.takesGuard = false → ds.length ≤ p.rank)) ?_ ?_ ?_ h t hcall
  · intro p x p' op hj hx htry
    rw [eq_begin_of_called hj hx]
    rcases begin_cases b op with ⟨-, h⟩ | ⟨hno, -⟩ | ⟨hno, -⟩
    · rw [h]
      exact ⟨rfl, fun _ => Nat.zero_le _⟩
    · rw [htry] at hno
      cases hno
    · rw [htry] at hno
      cases hno
  · intro p x p' op ds hj hx hi htry
    obtain ⟨hp, hguard⟩ := ofTry_of_jump (hi htry).1 hj hx
    refine ⟨hp, fun hno => ?_⟩
    rw [hguard] at hno
    cases hno
  · intro tr m pc t o d p op ds hr hf hi htry
    obtain ⟨hp, hlen⟩ := hi htry
    obtain ⟨hp', hrank⟩ := ofTry_of_fire hp hf
    refine ⟨hp', fun hno => ?_⟩
    have hle := hlen hno
    have hlt := hrank hno
    rw [List.length_cons]
    omega

/-- No program counter has more than five steps behind it. -/
lemma rank_le_five (p : Pc σ ρ) : p.rank ≤ 5 := by
  cases p <;> simp [Pc.rank]

/-- A `try` operation that has not returned to user code makes its next step in every world. -/
lemma fire_isSome_of_ofTry {m : Mem σ Tid} {op : Op σ ρ} {p : Pc σ ρ} (hp : p.OfTry op) (t : Tid)
    (o : World) : p = .idle ∨ (∃ md, p = .held md) ∨ (fire b m t o p).isSome = true := by
  cases p with
  | idle => exact .inl rfl
  | held md => exact .inr (.inl ⟨md, rfl⟩)
  | future | pending | poll | leave | acquire | parked => exact hp.elim
  | tryAcquire op' =>
    refine .inr (.inr ?_)
    simp only [fire]
    split <;> rfl
  | _ => exact .inr (.inr rfl)

/-- The lock is not to be had for an activity: somebody has a guard that does not go with the mode, or
the queue reserves the lock for somebody else who waits. -/
def Obstructed (pc : Tid → Pc σ ρ) (t : Tid) (md : LockMode) (o : World) : Prop :=
  (∃ u md', (pc u).mode = some md' ∧ ¬ md.Compatible md') ∨
    (o.admits = false ∧ ∃ u, u ≠ t ∧ (pc u).waits = true)

/-- **A try at the raw lock fails exactly if the lock is not to be had.** -/
lemma tryAcquire_eq_false_iff (h : Run b v₀ tr c) {t : Tid} {md : LockMode} {o : World} :
    c.mem.tryAcquire t md o.admits = false ↔ Obstructed c.pc t md o := by
  have hholders : (c.mem.holders.acquire t md).isSome = false ↔
      ∃ u md', (c.pc u).mode = some md' ∧ ¬ md.Compatible md' := by
    rw [Option.isSome_eq_false_iff, Option.isNone_iff_eq_none, Holders.acquire_eq_none]
    simp only [mem_holders_iff h]
  rw [Obstructed, ← hholders, ← contended_iff_waits h t, Mem.tryAcquire, Bool.and_eq_false_iff,
    Bool.or_eq_false_iff, Bool.not_eq_false', or_comm]

/-- **The operations that never wait are decided at once.** At no point does a `try` operation wait for
anybody: until it returns to user code it can make its next step, and one with a closure makes at most
five. Its only try at the lock is decided by what the others hold and by the past: it returns
`WouldBlock` exactly if another activity has a guard that does not go with its own access, or the queue
reserves the lock for another activity that waits; otherwise `Poisoned` exactly if the lock records
poisoning and a panic has dropped an exclusive guard whose thread was not unwinding when it was taken;
and otherwise it goes on with its guard.

**Proof sketch.** The program counters of a `try` operation follow each other in the order of `rank`
(`ofTry_of_run`), and none of them waits. The holders and the queue of the lock are read off the program
counters of the others, the marker off the trace. -/
theorem try_operations_decided (h : Run b v₀ tr c) {t : Tid} {op : Op σ ρ} {ds : List (Did σ ρ)}
    (hcall : Threads.callOf Choice.called t tr = some (op, ds)) (htry : op.isTry = true) (o : World) :
    (c.pc t = .idle ∨ (∃ md, c.pc t = .held md) ∨ (fire b c.mem t o (c.pc t)).isSome = true) ∧
    (op.takesGuard = false → ds.length ≤ 5) ∧
    (c.pc t = .tryAcquire op →
      (Obstructed c.pc t (b.mode op.access) o →
        fire b c.mem t o (c.pc t) = some (.refused, .done (.error .wouldBlock))) ∧
      (¬ Obstructed c.pc t (b.mode op.access) o →
        (b.poisons = true ∧ PanickedUnder tr →
          fire b c.mem t o (c.pc t) = some (.acquired (b.mode op.access) true o.panicking,
            .release (b.mode op.access) (.error .poisoned))) ∧
        (¬ (b.poisons = true ∧ PanickedUnder tr) →
          fire b c.mem t o (c.pc t) = some (.acquired (b.mode op.access) false o.panicking,
            op.entered (b.mode op.access))))) := by
  obtain ⟨hp, hlen⟩ := ofTry_of_run h hcall htry
  refine ⟨fire_isSome_of_ofTry hp t o, fun hno => (hlen hno).trans (rank_le_five _), fun hat => ?_⟩
  rw [← tryAcquire_eq_false_iff h, ← poisoned_iff h, hat]
  refine ⟨fun hno => ?_, fun hyes => ⟨fun hpoison => ?_, fun hpoison => ?_⟩⟩
  · simp [fire, hno]
  · simp [fire, hyes, hpoison]
  · simp [fire, hyes, hpoison]

/-- A writer owns its guard of a standard read-write lock, and a reader that does not wait is told so. -/
theorem try_operations_decided_contended :
    ∃ (tr : List (Label ℕ ℕ Bool)) (c : Threads.Conf (Mem ℕ Bool) Bool (Pc ℕ ℕ)),
      Run .stdRwLock 0 tr c ∧
      fire .stdRwLock c.mem true .quiet (c.pc true) = some (.refused, .done (.error .wouldBlock)) := by
  have hr : ∃ (tr : List (Label ℕ ℕ Bool)) (c : Threads.Conf (Mem ℕ Bool) Bool (Pc ℕ ℕ)),
      Run .stdRwLock 0 tr c ∧
      Threads.callOf Choice.called true tr = some (.tryWithRead some, []) ∧
      c.pc true = .tryAcquire (.tryWithRead some) ∧ (c.pc false).mode = some .exclusive :=
    ⟨_, _, Lts.Run.nil.cons (.choose false (.call .write)) rfl |>.cons (.run false .quiet) rfl
      |>.cons (.run false .quiet) rfl |>.cons (.choose true (.call (.tryWithRead some))) rfl,
      rfl, rfl, rfl⟩
  obtain ⟨tr, c, hr, hcall, hat, hheld⟩ := hr
  exact ⟨tr, c, hr,
    ((try_operations_decided hr hcall rfl .quiet).2.2 hat).1 (.inl ⟨false, _, hheld, by simp⟩)⟩

/-! ## Futures -/

/-- Between the call of a waiting operation of an asynchronous lock and the first poll of its future
nothing is done.

**Proof sketch.** Induction on what happened since the call. A future that is never polled has no
primitive, so the only thing that can happen to it is its drop. -/
lemma lazy_of_run (ha : b.isAsync = true) {t : Tid} {op : Op σ ρ} (htry : op.isTry = false)
    {later past : List (Label σ ρ Tid)} (h : Run b v₀ (later ++ .chose t (.call op) :: past) c)
    (hlater : ∀ x, .chose t x ∈ later → x = .cancel) :
    (c.pc t = .future op ∨ c.pc t = .idle) ∧ ∀ d, .did t d ∉ later := by
  revert hlater
  refine Run.induct_since (I := fun later _ pc => (∀ x, .chose t x ∈ later → x = .cancel) →
    (pc t = .future op ∨ pc t = .idle) ∧ ∀ d, .did t d ∉ later) ?_ ?_ ?_ h
  · intro m pc' hr _
    obtain ⟨pc, p, -, hj, rfl⟩ := hr.last_chose
    obtain rfl := eq_begin_of_called hj rfl
    rcases begin_cases b op with ⟨hno, -⟩ | ⟨-, -, hbegin⟩ | ⟨-, hno, -⟩
    · rw [htry] at hno
      cases hno
    · exact ⟨.inl ((Function.update_self _ _ _).trans hbegin), by simp⟩
    · rw [ha] at hno
      cases hno
  · intro later m pc u o d p hr hi hf hlater
    obtain ⟨hat, hnone⟩ := hi fun x hx => hlater x (List.mem_cons_of_mem _ hx)
    have hut : u ≠ t := by
      rintro rfl
      rcases hat with hat | hat <;> rw [hat] at hf <;> cases hf
    rw [Function.update_of_ne (Ne.symm hut)]
    refine ⟨hat, fun d' hd' => ?_⟩
    rcases List.mem_cons.mp hd' with heq | hd'
    · cases heq
      exact hut rfl
    · exact hnone d' hd'
  · intro later m pc u x p hr hi hj hlater
    obtain ⟨hat, hnone⟩ := hi fun x hx => hlater x (List.mem_cons_of_mem _ hx)
    refine ⟨?_, by simpa using hnone⟩
    by_cases hut : u = t
    · subst hut
      obtain rfl := hlater x List.mem_cons_self
      rw [Function.update_self]
      rcases hat with hat | hat <;> rw [hat] at hj <;> cases hj
      exact .inr rfl
    · rw [Function.update_of_ne (Ne.symm hut)]
      exact hat

/-- After the drop of a future its activity does nothing but leave the queue.

**Proof sketch.** Induction on what happened since the drop. It leads to the one primitive that takes
the future out of the queue, or to no primitive at all. -/
lemma left_of_run {t : Tid} {later past : List (Label σ ρ Tid)}
    (h : Run b v₀ (later ++ .chose t .cancel :: past) c) (hlater : ∀ x, .chose t x ∉ later) :
    (c.pc t = .leave ∨ c.pc t = .idle) ∧ ∀ d, .did t d ∈ later → d = .left := by
  revert hlater
  refine Run.induct_since (I := fun later _ pc => (∀ x, .chose t x ∉ later) →
    (pc t = .leave ∨ pc t = .idle) ∧ ∀ d, .did t d ∈ later → d = .left) ?_ ?_ ?_ h
  · intro m pc' hr _
    obtain ⟨pc, p, -, hj, rfl⟩ := hr.last_chose
    rw [Function.update_self]
    refine ⟨?_, by simp⟩
    rcases jump_cases hj with ⟨op, -, hx, -⟩ | ⟨op, -, ⟨hx, -⟩ | ⟨-, rfl⟩⟩ |
      ⟨op, -, ⟨hx, -⟩ | ⟨-, rfl⟩⟩ | ⟨md, -, ⟨f, hx, -⟩ | ⟨f, -, hx, -⟩ | ⟨hx, -⟩ | ⟨hx, -⟩⟩
    case inr.inl.inr => exact .inr rfl
    case inr.inr.inl.inr => exact .inl rfl
    all_goals cases hx
  · intro later m pc u o d p hr hi hf hlater
    obtain ⟨hat, hleft⟩ := hi fun x hx => hlater x (List.mem_cons_of_mem _ hx)
    by_cases hut : u = t
    · subst hut
      rw [Function.update_self]
      rcases hat with hat | hat <;> rw [hat] at hf <;> cases hf
      exact ⟨.inr rfl, by simpa using hleft⟩
    · rw [Function.update_of_ne (Ne.symm hut)]
      exact ⟨hat, by simpa [Ne.symm hut] using hleft⟩
  · intro later m pc u x p hr hi hj hlater
    obtain ⟨hat, hleft⟩ := hi fun y hy => hlater y (List.mem_cons_of_mem _ hy)
    have hut : u ≠ t := by
      rintro rfl
      exact hlater x List.mem_cons_self
    rw [Function.update_of_ne (Ne.symm hut)]
    exact ⟨hat, by simpa using hleft⟩

/-- A future is dropped while its call waits. -/
lemma waited_of_cancel {m : Mem σ Tid} {pc : Tid → Pc σ ρ} {t : Tid} {p : Pc σ ρ}
    (h : Run b v₀ tr ⟨m, pc⟩) (hj : jump b (pc t) .cancel = some p) :
    ∃ op ds, Threads.callOf Choice.called t tr = some (op, ds) ∧ op.isTry = false ∧
      op.Waited b ds := by
  have hat : ∃ op, pc t = .future op ∨ pc t = .pending op := by
    rcases jump_cases hj with ⟨op, -, hx, -⟩ | ⟨op, hp, -⟩ | ⟨op, hp, -⟩ |
      ⟨md, -, ⟨f, hx, -⟩ | ⟨f, -, hx, -⟩ | ⟨hx, -⟩ | ⟨hx, -⟩⟩
    case inr.inl => exact ⟨op, .inl hp⟩
    case inr.inr.inl => exact ⟨op, .inr hp⟩
    all_goals cases hx
  obtain ⟨op', hat⟩ := hat
  have hne : pc t ≠ .idle := by
    rcases hat with hat | hat <;> rw [hat] <;> simp
  obtain ⟨op, ds, hcall⟩ := exists_call h hne
  have hw : Within b op ds (pc t) := within_of_run h t hcall
  refine ⟨op, ds, hcall, ?_⟩
  rcases hat with hat | hat <;> rw [hat] at hw <;> exact ⟨hw.2.1, hw.2.2.2⟩

/-- A call that waits has not got the lock. -/
lemma not_acquired_of_waited {op : Op σ ρ} {ds : List (Did σ ρ)} {md : LockMode}
    {poisoned panicking : Bool} (h : op.Waited b ds) : .acquired md poisoned panicking ∉ ds :=
  fun hmem => by simpa using h.1 _ hmem

/-- **Futures are lazy and can be dropped at any suspension.** The future of a waiting operation does
nothing before its first poll. A future can be dropped only while it is suspended, and then it has at
most given up some polls and joined the queue of the lock: it has no guard, and its closure did not
run. After the drop it does nothing but leave the queue. Once an operation with a closure has the lock
there is no suspension until it returns or panics.

**Proof sketch.** The first and the third part follow the activity from the choice on, by induction on
the run. For the others the reports of the call are read off the program counters at which a choice is
possible (`within_of_run`). -/
theorem cancellation_harmless (ha : b.isAsync = true) (h : Run b v₀ tr c) :
    (∀ t op later past, tr = later ++ .chose t (.call op) :: past → op.isTry = false →
      (∀ x, .chose t x ∈ later → x = .cancel) → ∀ d, .did t d ∉ later) ∧
    (∀ t past, .chose t .cancel :: past <:+ tr →
      ∃ op ds, Threads.callOf Choice.called t past = some (op, ds) ∧ op.isTry = false ∧
        ∀ d ∈ ds, d = .queued ∨ d = .yielded) ∧
    (∀ t later past, tr = later ++ .chose t .cancel :: past → (∀ x, .chose t x ∉ later) →
      ∀ d, .did t d ∈ later → d = .left) ∧
    ∀ t x past op ds md poisoned panicking, .chose t x :: past <:+ tr →
      Threads.callOf Choice.called t past = some (op, ds) → op.takesGuard = false →
      .acquired md poisoned panicking ∈ ds → (∃ out, .returned out ∈ ds) ∨ .unwound ∈ ds := by
  refine ⟨?_, ?_, ?_, ?_⟩
  · rintro t op later past rfl htry hlater
    exact (lazy_of_run ha htry h hlater).2
  · intro t past hs
    obtain ⟨m, pc, p, hr, hj⟩ := h.exists_jump hs
    obtain ⟨op, ds, hcall, htry, hw⟩ := waited_of_cancel hr hj
    exact ⟨op, ds, hcall, htry, hw.1⟩
  · rintro t later past rfl hlater
    exact (left_of_run h hlater).2
  · intro t x past op ds md poisoned panicking hs hcall hno hmem
    obtain ⟨m, pc, p, hr, hj⟩ := h.exists_jump hs
    have hw : Within b op ds (pc t) := within_of_run hr t hcall
    rcases jump_cases hj with ⟨op', hp, -⟩ | ⟨op', hp, -⟩ | ⟨op', hp, -⟩ | ⟨md', hp, -⟩ <;> rw [hp] at hw
    · rcases hw with hret | hunw | hwait | ⟨ds', rfl, hwait⟩
      · exact .inl hret
      · exact .inr hunw
      · exact absurd hmem (not_acquired_of_waited hwait)
      · exact absurd ((List.mem_cons.mp hmem).resolve_left (by simp)) (not_acquired_of_waited hwait)
    · exact absurd hmem (not_acquired_of_waited hw.2.2.2)
    · exact absurd hmem (not_acquired_of_waited hw.2.2.2)
    · rw [hw.1] at hno
      cases hno

/-- A future waits in the queue of a Tokio mutex while another task has the lock, and is dropped. -/
theorem cancellation_harmless_queued :
    ∃ (tr past : List (Label ℕ ℕ Bool)) (c : Threads.Conf (Mem ℕ Bool) Bool (Pc ℕ ℕ)),
      Run .tokioMutex 5 tr c ∧ .chose true .cancel :: past <:+ tr ∧ .did true .queued ∈ past ∧
      ∃ op ds, Threads.callOf Choice.called true past = some (op, ds) ∧ op.isTry = false ∧
        ∀ d ∈ ds, d = .queued ∨ d = .yielded := by
  have hr : ∃ (past : List (Label ℕ ℕ Bool)) (c : Threads.Conf (Mem ℕ Bool) Bool (Pc ℕ ℕ)),
      Run .tokioMutex 5 (.chose true .cancel :: past) c ∧ past.head? = some (.did true .queued) :=
    ⟨_, _, Lts.Run.nil.cons (.choose false (.call .lock)) rfl |>.cons (.choose false .poll) rfl
      |>.cons (.run false .quiet) rfl
      |>.cons (.choose true (.call (.withWrite fun v => (2 * v, some v)))) rfl
      |>.cons (.choose true .poll) rfl |>.cons (.run true .quiet) rfl
      |>.cons (.choose true .cancel) rfl, rfl⟩
  obtain ⟨past, c, hr, hqueued⟩ := hr
  exact ⟨_, past, c, hr, List.suffix_rfl, List.mem_of_mem_head? hqueued,
    (cancellation_harmless rfl hr).2.1 true past List.suffix_rfl⟩

end QubitLock.Lock
