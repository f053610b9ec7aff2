import QubitLock.Blocking.WakeSource
import QubitLock.Monitor.Progress

set_option relaxedAutoImplicit false
set_option autoImplicit false

/-!
# Progress of the blocking operations

An operation of a blocking monitor waits in two places only: it takes the state lock, or it is parked.
Whoever holds the state lock never waits itself, unless it is user code with a guard, and a
notification that has taken a waiter never waits before it has signalled it. So the monitor adds no
deadlock of its own.

## Main definitions

* `Blocking.UserCode` — the program counters of user code.

## Main results

* `Blocking.operations_progress` — what an operation waits for.
-/

namespace QubitLock.Blocking

variable {σ ρ Tid : Type} [DecidableEq Tid]

/-- User code, with or without a guard. -/
def UserCode : Pc σ ρ → Prop
  | .idle | .held | .heldUnwinding => True
  | _ => False

/-- Nothing is executed in user code alone. -/
lemma userCode_of_suspend {maxInstant : ℕ} {p : Pc σ ρ} (h : code maxInstant p = .suspend) :
    UserCode p := by
  cases p with
  | idle | held | heldUnwinding => trivial
  | notify n out => cases n <;> cases h
  | _ => cases h

/-- A thread parks in a guard wait alone. -/
lemma park_of_code {maxInstant : ℕ} {p k : Pc σ ρ} {a : ℕ} (h : code maxInstant p = .park a k) :
    ∃ timed caller g, p = .park timed caller g ∧ g.waiter = a := by
  cases p with
  | park timed caller g =>
    simp only [code, Cmd.park.injEq] at h
    exact ⟨timed, caller, g, rfl, h.1⟩
  | notify n out => cases n <;> cases h
  | _ => cases h

variable {maxInstant : ℕ} {s₀ : Setup σ} {tr : List (Program.Label σ ρ (Choice σ ρ) Tid)}
  {c : Threads.Conf (Mem σ Tid) Tid (Pc σ ρ)}

omit [DecidableEq Tid] in
/-- A notification can signal the waiters that it has taken. -/
lemma ready_of_sig {m : Mem σ Tid} {u : Tid} {p : Pc σ ρ} {a : ℕ} (h : a ∈ (typ p).sig) :
    (code maxInstant p).Ready m u := by
  obtain ⟨b, rest, out, rfl, -⟩ := signal_of_sig h
  trivial

/-- **The blocking operations make progress.** In every state of every run, an operation that can not
go on waits for the state lock, whose owner is user code with a guard or can go on whatever the outside
world decides; or it is parked with its latch unset, and its registration is still in the registry or a
notification that has taken it can go on and signal it.

**Proof sketch.** An operation that can not fire waits for the lock or is parked, for every other
primitive is always ready. The owner of the lock is at a place that holds it, where every primitive of
an operation is ready. A parked thread whose latch is unset has a source (`Owned`): its registration, or
a thread that has taken it and is about to signal, which waits for nobody. -/
theorem operations_progress (h : (program maxInstant).Run s₀ tr c) {t : Tid}
    (ht : ¬ UserCode (c.pc t)) {fault : Option TimeError}
    (hf : (program maxInstant).threads.fire c.mem t fault (c.pc t) = none) :
    (∃ u, u ≠ t ∧ c.mem.owner = some u ∧ (c.pc u ≠ .idle ∧ UserCode (c.pc u) ∨
      ∀ fault', ((program maxInstant).threads.fire c.mem u fault' (c.pc u)).isSome)) ∨
    ∃ timed caller g, c.pc t = .park timed caller g ∧ c.mem.signalled g.waiter = false ∧
      (g ∈ c.mem.registrations ∨ ∃ u, g.waiter ∈ (typ (c.pc u)).sig ∧
        ∀ fault', ((program maxInstant).threads.fire c.mem u fault' (c.pc u)).isSome) := by
  have howned := (typed maxInstant Tid).owned h
  have hnot : ¬ (code maxInstant (c.pc t)).Ready c.mem t := by
    intro hready
    have hsome : ((code maxInstant (c.pc t)).fire c.mem t fault).isSome := Cmd.isSome_fire_iff.mpr hready
    rw [show (code maxInstant (c.pc t)).fire c.mem t fault = none from hf] at hsome
    cases hsome
  rcases (typed maxInstant Tid).waits_for howned hnot with hsus | ⟨k, u, -, hu, hut⟩ |
    ⟨k, g, hpark, hset, hreg, hsource⟩
  · exact absurd (userCode_of_suspend hsus) ht
  · refine .inl ⟨u, hut, hu, ?_⟩
    rcases (typed maxInstant Tid).owner_ready howned hu with hsus | hready
    · refine .inl ⟨?_, userCode_of_suspend hsus⟩
      intro hidle
      have hholds := (howned.lock.owner u).mp hu
      simp only [hidle] at hholds
      cases hholds
    · exact .inr fun fault' => Cmd.isSome_fire_iff.mpr hready
  · obtain ⟨timed, caller, g', hp, -⟩ := park_of_code hpark
    obtain rfl : g' = g := by
      have hreg : (typ (c.pc t)).reg = some g := hreg
      rw [hp] at hreg
      exact Option.some.inj hreg
    refine .inr ⟨timed, caller, g', hp, hset, ?_⟩
    rcases hsource with hin | ⟨u, hu⟩
    · exact .inl hin
    · exact .inr ⟨u, hu, fun fault' => Cmd.isSome_fire_iff.mpr (ready_of_sig hu)⟩

/-- Thread `true` waits for the state lock while thread `false` runs the closure of `with_write`. -/
theorem operations_progress_contended :
    ∃ (tr : List (Program.Label ℕ Unit (Choice ℕ Unit) Bool))
      (c : Threads.Conf (Mem ℕ Bool) Bool (Pc ℕ Unit)),
      (program 100).Run ⟨0, 0, true⟩ tr c ∧ ¬ UserCode (c.pc true) ∧
      (program 100).threads.fire c.mem true none (c.pc true) = none ∧
      ((∃ u, u ≠ true ∧ c.mem.owner = some u ∧ (c.pc u ≠ .idle ∧ UserCode (c.pc u) ∨
        ∀ fault', ((program 100).threads.fire c.mem u fault' (c.pc u)).isSome)) ∨
      ∃ timed caller g, c.pc true = .park timed caller g ∧ c.mem.signalled g.waiter = false ∧
        (g ∈ c.mem.registrations ∨ ∃ u, g.waiter ∈ (typ (c.pc u)).sig ∧
          ∀ fault', ((program 100).threads.fire c.mem u fault' (c.pc u)).isSome)) := by
  have hr : ∃ (tr : List (Program.Label ℕ Unit (Choice ℕ Unit) Bool))
      (c : Threads.Conf (Mem ℕ Bool) Bool (Pc ℕ Unit)),
      (program 100).Run ⟨0, 0, true⟩ tr c ∧ c.pc true = .acquire (.read fun _ => some ()) ∧
      (program 100).threads.fire c.mem true none (c.pc true) = none :=
    ⟨_, _, Lts.Run.nil.cons (.choose false (.call (.withWrite fun v => (v + 1, some ())))) rfl
      |>.cons (.run false none) rfl |>.cons (.choose true (.call (.withRead fun _ => some ()))) rfl,
      rfl, rfl⟩
  obtain ⟨tr, c, hr, hpc, hnone⟩ := hr
  have huser : ¬ UserCode (c.pc true) := by simp [hpc, UserCode]
  exact ⟨tr, c, hr, huser, hnone, operations_progress hr huser hnone⟩

end QubitLock.Blocking
