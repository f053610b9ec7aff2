import QubitLock.Blocking.Broadcast
import QubitLock.Blocking.Calls
import QubitLock.Monitor.Permits

set_option relaxedAutoImplicit false
set_option autoImplicit false

/-!
# Permits on the blocking monitors

The account of `Monitor/Permits.lean` for `wait_while` and its timed variants together with
`with_write_notify_one`. A selected wait that times out still checks before it returns; only a
Timer error makes it return without a check.

## Main definitions

* `Blocking.PermitCall` — the calls of a program that passes permits on.
* `Blocking.Selectable` — where the latest registration of a thread may be selected.

## Main results

* `Blocking.notify_one_strands_no_permit` — the account.
-/

namespace QubitLock.Blocking

variable {ρ : Type}

/-- The calls of a program that passes permits on: waits for a permit, untimed or timed, and
updates that add a permit and notify one; reads and plain notifications do no harm. -/
def PermitCall : Call ℕ ρ → Prop
  | .op (.waitWhile w) | .op (.waitWhileFor _ w) | .op (.waitWhileWithDeadline _ w) |
    .op (.waitWhileWithTotalTimeout _ w) => TakesPermit w
  | .op (.withWriteNotifyOne f) => AddsPermit f
  | .op (.withRead _) | .op .notifyOne | .op .notifyAll => True
  | _ => False

/-- The call is an increment. -/
def Call.isPut : Call ℕ ρ → Bool
  | .op (.withWriteNotifyOne _) => true
  | _ => false

/-- A Timer error gives up a wait without a further check. -/
def losesSelection : Outcome ρ → Bool
  | .timed (.error _) => true
  | _ => false

/-- The program counters at which the latest registration of the thread may be selected and not
settled: from the registration to the next check with its action, or to the return of an error. -/
def Selectable : Pc ℕ ρ → Prop
  | .pollRegistered _ _ | .dropEarly _ _ _ | .release _ _ _ | .park _ _ _ |
    .dropRegistration _ _ _ | .unwindRegistration _ _ | .reacquire _ | .reacquireTimed _ _ |
    .finalPoll _ _ | .check _ _ | .recheck _ _ _ | .act _ _ | .finish (.timed (.error _)) => True
  | _ => False

/-- A wait of a permit program is a wait for a permit. -/
lemma PermitCall.takes {c : Call ℕ ρ} {w : Condition ℕ ρ} (h : PermitCall c)
    (hw : c.condition = some w) : TakesPermit w := by
  cases c with
  | op op => cases op <;> cases hw <;> exact h
  | guard => cases hw

/-- The guard waits of a permit program are those of its predicate waits. -/
lemma PermitCall.loop {c : Call ℕ ρ} {timed : Bool} {k : Caller ℕ ρ} (h : PermitCall c)
    (hk : c.Waits timed k) : ∃ w n, k = .loop w n ∧ TakesPermit w := by
  cases k with
  | loop w n => exact ⟨w, n, rfl, h.takes hk.1⟩
  | guard =>
    cases c with
    | op => cases hk.1
    | guard => cases h

/-- The result of a timed guard wait leads to a check or to the return of an error. -/
lemma selectable_resumeTimed (w : Condition ℕ ρ) (n : ℕ) (r : Except TimeError WaitTimeoutStatus) :
    Selectable (resumeTimed (.loop w n) r) := by
  cases r <;> trivial

/-- **A selected wait goes on to a check or gives up with an error.**

**Proof sketch.** One case for each program counter. After its selection a wait stays in the suspension,
takes the lock again, and comes to its check; from there it returns only with a Timer error before the
check is done. -/
lemma selectable_reports {maxInstant : ℕ} {c : Call ℕ ρ} {p p' : Pc ℕ ρ} {d : Did ℕ ρ}
    (h : (code maxInstant p).Reports d p') (hat : At c p) (hc : PermitCall c)
    (hp : Selectable p) :
    d.entered = none ∧ (d.settles = false → Selectable p') ∧
      ∀ out, d.outcome = some out → losesSelection out = true := by
  cases p with
  | pollRegistered k g =>
    cases h with
    | pollTimer _ _ r =>
      refine ⟨rfl, fun _ => ?_, fun out ho => by cases ho⟩
      cases r <;> trivial
  | dropEarly k g r =>
    cases h
    obtain ⟨w, n, rfl, -⟩ := hc.loop hat
    exact ⟨rfl, fun _ => selectable_resumeTimed w n _, fun out ho => by cases ho⟩
  | release | park =>
    cases h
    exact ⟨rfl, fun _ => trivial, fun out ho => by cases ho⟩
  | dropRegistration timed k g =>
    cases h
    refine ⟨rfl, fun _ => ?_, fun out ho => by cases ho⟩
    cases timed <;> trivial
  | unwindRegistration => cases hat
  | reacquire k =>
    cases h
    obtain ⟨w, n, rfl, -⟩ := hc.loop hat
    exact ⟨rfl, fun _ => trivial, fun out ho => by cases ho⟩
  | reacquireTimed =>
    cases h
    exact ⟨rfl, fun _ => trivial, fun out ho => by cases ho⟩
  | finalPoll k a =>
    cases h with
    | pollTimer _ _ r =>
      obtain ⟨w, n, rfl, -⟩ := hc.loop hat
      refine ⟨rfl, fun _ => ?_, fun out ho => by cases ho⟩
      cases r <;> exact selectable_resumeTimed w n _
  | check w n =>
    obtain rfl : c = _ := hat
    cases h with
    | check _ _ v =>
      refine ⟨rfl, fun hset => ?_, fun out ho => by cases ho⟩
      rw [TakesPermit.eq_false hc hset]
      trivial
  | recheck w n status =>
    cases h with
    | check _ _ v =>
      refine ⟨rfl, fun hset => ?_, fun out ho => by cases ho⟩
      rw [(hc.takes hat.1).eq_false hset]
      trivial
  | act w timed =>
    cases h
    exact ⟨rfl, fun hset => (by cases hset), fun out ho => by cases ho⟩
  | finish out =>
    cases h
    refine ⟨rfl, fun hset => (by cases hset), fun out' ho => ?_⟩
    cases ho
    cases out with
    | timed r => cases r <;> first | rfl | cases hp
    | _ => cases hp
  | _ => cases hp

/-- The writes of a permit program: an update adds a permit, the action of a wait takes one. -/
lemma permit_wrote {maxInstant : ℕ} {c : Call ℕ ρ} {p p' : Pc ℕ ρ} {f : ℕ → ℕ × Option ρ} {v : ℕ}
    {r : Option ρ} (h : (code maxInstant p).Reports (.wrote f v r) p') (hat : At c p)
    (hc : PermitCall c) :
    (c.isPut = true ∧ (f v).1 = v + 1 ∧ ¬ Selectable p) ∨ (c.isPut = false ∧ (f v).1 = v - 1) := by
  cases p with
  | write f' n =>
    cases h
    rcases n with - | - | -
    · obtain rfl : c = _ := hat
      cases hc
    · obtain rfl : c = _ := hat
      exact .inl ⟨rfl, (hc v).1, id⟩
    · obtain rfl : c = _ := hat
      cases hc
  | guardWrite f' =>
    obtain rfl : c = _ := hat
    cases hc
  | act w timed =>
    cases h
    refine .inr ⟨?_, ((hc.takes hat.1).2 v).1⟩
    cases c with
    | op op => cases op <;> first | rfl | cases hat.1
    | guard => rfl
  | notify n out => cases n <;> cases h
  | _ => cases h

/-- Only a wait for a permit registers. -/
lemma permit_register {maxInstant : ℕ} {c : Call ℕ ρ} {p p' : Pc ℕ ρ} {g : Option Registration}
    (h : (code maxInstant p).Reports (.registered g) p') (hat : At c p) (hc : PermitCall c) :
    ∃ w, waitsOn p = some w ∧ w.Pure (· == 0) := by
  cases p with
  | register timed k =>
    obtain ⟨w, n, rfl, hw⟩ := hc.loop hat
    exact ⟨w, rfl, hw.1⟩
  | notify n out => cases n <;> cases h
  | _ => cases h

/-- The blocking monitors pass permits on. -/
def permits (maxInstant : ℕ) (Tid : Type) [DecidableEq Tid] :
    Permits (calls maxInstant : Calls (program maxInstant) (Call ℕ ρ)) (waits maxInstant)
      (typed maxInstant Tid).typ where
  Good := PermitCall
  isPut := Call.isPut
  loses := losesSelection
  Selectable := Selectable
  reg := by
    intro p g h
    cases p <;> trivial
  user := by
    intro p hu hp
    cases p <;> first | cases hu; done | cases hp
  user_reports := by
    intro p d p' h hu
    cases p <;> cases hu <;> cases h
    exact ⟨rfl, rfl⟩
  step := selectable_reports
  jump := by
    intro p x p' h hp
    cases p <;> cases x <;> cases h <;> cases hp
  wrote := permit_wrote
  blocked := by
    intro p v p' c h hat hc
    obtain ⟨w, n, hw, ha⟩ := condition_of_checked h hat
    have hzero := (hc.takes hw).1.eq_true ha.symm
    simpa using hzero
  register := permit_register

variable {Tid : Type} [DecidableEq Tid]

/-- **`notify_one` never strands a permit.** Let the threads wait for permits, untimed or timed, and
add permits with `with_write_notify_one`. While some wait is in the registry, the number of permits
is at most the number of increments whose `notify_one` has not executed its `take_one`, plus the
number of selected waits that have neither completed a check nor returned, plus the number of
selected waits that returned a Timer error before they completed a check.

**Proof sketch.** The general account `Permits.account`, for the waits and the increments of the
blocking program: which primitives settle a wait, and that a selected wait goes on to a check or returns
an error (`selectable_reports`). -/
theorem notify_one_strands_no_permit (maxInstant : ℕ) (s₀ : Setup ℕ)
    {tr : List (Program.Label ℕ ρ (Choice ℕ ρ) Tid)} {c : Threads.Conf (Mem ℕ Tid) Tid (Pc ℕ ρ)}
    (h : (program maxInstant).Run s₀ tr c)
    (hcalls : ∀ t (x : Choice ℕ ρ) o, .chose t x ∈ tr → x.called = some o → PermitCall o)
    (hne : c.mem.registrations ≠ []) :
    c.mem.value ≤ (pendingPuts Choice.called Call.isPut tr).length + (selected tr).length +
      discarded losesSelection tr :=
  (Permits.account (T := typed maxInstant Tid) (Q := permits maxInstant Tid) h hcalls).bound hne

/-- Threads `0` and `1` wait for a permit, thread `2` adds one and selects thread `0`, which has not
woken yet. -/
def selectedForPermit : List (Threads.Event ℕ (Option TimeError) (Choice ℕ Unit)
    (TimerEvent ℕ)) :=
  [.choose 0 (.call (.waitWhile ⟨fun _ v => some (v == 0), fun v => (v - 1, some ())⟩)),
    .run 0 none, .run 0 none, .run 0 none, .run 0 none,
    .choose 1 (.call (.waitWhileFor 5 ⟨fun _ v => some (v == 0), fun v => (v - 1, some ())⟩)),
    .run 1 none, .run 1 none, .run 1 none, .run 1 none, .run 1 none, .run 1 none, .run 1 none,
    .run 1 none,
    .choose 2 (.call (.withWriteNotifyOne fun v => (v + 1, some ()))),
    .run 2 none, .run 2 none, .run 2 none, .run 2 none, .run 2 none]

/-- One permit, no pending increment, one selected wait, and nothing discarded. -/
theorem notify_one_strands_no_permit_selected :
    ∃ tr, ∃ c : Threads.Conf (Mem ℕ ℕ) ℕ (Pc ℕ Unit),
      (program 100).Run ⟨0, 0, true⟩ tr c ∧ c.mem.registrations = [⟨2, 1⟩] ∧ c.mem.value = 1 ∧
      pendingPuts Choice.called Call.isPut tr = [] ∧ selected tr = [⟨1, 0⟩] ∧
      c.mem.value ≤ (pendingPuts Choice.called Call.isPut tr).length + (selected tr).length +
        discarded losesSelection tr := by
  obtain ⟨tr, c, hr, hp, hes⟩ := (program 100).threads.exists_run_of_play
    ((program 100).start ⟨0, 0, true⟩) selectedForPermit
    (p := fun s => s.1.mem.registrations = [⟨2, 1⟩] ∧ s.1.mem.value = 1 ∧
      pendingPuts Choice.called Call.isPut s.2 = [] ∧ selected s.2 = [⟨1, 0⟩]) (by decide)
  simp only [decide_eq_true_eq] at hp
  obtain ⟨hregs, hval, hput, hsel⟩ := hp
  refine ⟨tr, c, hr, hregs, hval, hput, hsel, ?_⟩
  refine notify_one_strands_no_permit 100 _ hr ?_ (by simp [hregs])
  intro t x o hmem hx
  have := hes _ _ hmem
  simp only [selectedForPermit, List.mem_cons, Threads.Event.choose.injEq, reduceCtorEq,
    false_or, or_false, List.not_mem_nil] at this
  obtain ⟨-, rfl⟩ | ⟨-, rfl⟩ | ⟨-, rfl⟩ := this <;> cases hx
  · exact ⟨fun _ _ => rfl, fun _ => ⟨rfl, rfl⟩⟩
  · exact ⟨fun _ _ => rfl, fun _ => ⟨rfl, rfl⟩⟩
  · exact fun _ => ⟨rfl, rfl⟩

end QubitLock.Blocking
