import QubitLock.Library.Simulation
import QubitLock.Monitor.Resources

set_option relaxedAutoImplicit false
set_option autoImplicit false

/-!
# Wakers that wake nobody

A pending poll with no waker at all, or with the waker of a task, leaves a trace in the Timer future
that no primitive and no Timer event ever looks at: a completed future wakes the waiter object whose
waker it holds, and nothing otherwise. Two memories that agree but for such wakers behave the same.

## Main definitions

* `Mem.settled` — the memory without the wakers that wake no waiter object.

## Main results

* `Cmd.fire_congr`, `Mem.effect_congr`, `Mem.timer_congr` — memories with the same settled part fire
  the same reports, and keep the same settled part.
* `settled_congruence` — no program can tell them apart.
-/

namespace QubitLock

variable {σ ρ K Pc Choice Tid : Type}

/-- The stored waker, if it is the one of a waiter object. -/
def Waker.effective : Option Waker → Option Waker
  | some (.waiter a) => some (.waiter a)
  | _ => none

/-- The future without a waker that wakes no waiter object. -/
def TimerFuture.settled (f : TimerFuture) : TimerFuture :=
  { f with waker := Waker.effective f.waker }

/-- The memory without the wakers that wake no waiter object. -/
def Mem.settled (m : Mem σ Tid) : Mem σ Tid :=
  { m with future := fun t => (m.future t).map TimerFuture.settled }

@[simp] lemma Waker.effective_effective (w : Option Waker) :
    Waker.effective (Waker.effective w) = Waker.effective w := by
  rcases w with _ | _ | _ | _ <;> rfl

@[simp] lemma TimerFuture.settled_settled (f : TimerFuture) : f.settled.settled = f.settled := by
  simp [TimerFuture.settled]

/-- A poll replaces the waker, whatever it was. -/
lemma TimerFuture.settled_polled (f : TimerFuture) (w : Waker) :
    (f.settled.polled w).settled = (f.polled w).settled := by
  obtain ⟨deadline, result, waker⟩ := f
  cases result <;> simp [TimerFuture.polled, TimerFuture.settled]

/-- A pending poll that wakes nobody changes nothing if nobody was to be woken. -/
lemma TimerFuture.settled_polled_noop {f : TimerFuture} (hw : Waker.effective f.waker = none) :
    (f.polled .noop).settled = f.settled := by
  have hnoop : Waker.effective (some .noop) = none := rfl
  obtain ⟨deadline, result, waker⟩ := f
  cases result with
  | none => simp only [TimerFuture.polled, TimerFuture.settled, hnoop, hw]
  | some r => rfl

/-- Nothing but a waker is missing in the settled part. -/
lemma Mem.eq_of_settled {m n : Mem σ Tid} (h : m.settled = n.settled) :
    m.value = n.value ∧ m.slot = n.slot ∧ m.clock = n.clock :=
  ⟨show m.settled.value = n.settled.value by rw [h], show m.settled.slot = n.settled.slot by rw [h],
    show m.settled.clock = n.settled.clock by rw [h]⟩

/-- No primitive looks at a waker. -/
lemma Cmd.fire_settled (m : Mem σ Tid) (t : Tid) (fault : Option TimeError) (c : Cmd σ ρ K) :
    c.fire m.settled t fault = c.fire m t fault := by
  cases c with
  | pollTimer w k => simp only [Cmd.fire, Mem.settled, Option.map_map]; rfl
  | _ => rfl

/-- **Memories with the same settled part fire the same reports.** -/
lemma Cmd.fire_congr {m n : Mem σ Tid} (h : m.settled = n.settled) (t : Tid)
    (fault : Option TimeError) (c : Cmd σ ρ K) : c.fire m t fault = c.fire n t fault := by
  rw [← c.fire_settled m, h, c.fire_settled n]

variable [DecidableEq Tid]

/-- The settled futures after an update. -/
lemma settled_update (future : Tid → Option TimerFuture) (t : Tid) (f : Option TimerFuture) :
    (fun u => (Function.update future t f u).map TimerFuture.settled) =
      Function.update (fun u => (future u).map TimerFuture.settled) t
        (f.map TimerFuture.settled) := by
  funext u
  by_cases hut : u = t
  · subst hut
    simp
  · simp [hut]

/-- A report changes the settled part alone. -/
lemma Mem.effect_settled (m : Mem σ Tid) (t : Tid) (d : Did σ ρ) :
    (m.settled.effect t d).settled = (m.effect t d).settled := by
  cases d with
  | timerMade deadline r =>
    cases r <;> simp [Mem.effect, Mem.settled, settled_update, Function.comp_def]
  | polled w r =>
    simp only [Mem.effect, Mem.settled, settled_update, Option.map_map, Function.comp_def,
      TimerFuture.settled_polled, TimerFuture.settled_settled]
  | guardReturned => simp [Mem.effect, Mem.settled, settled_update, Function.comp_def]
  | returned | unwound =>
    simp only [Mem.effect, Mem.dropCall, Mem.settled, settled_update, Option.map_map, Option.map_none,
      Function.comp_def, TimerFuture.settled_settled]
    rfl
  | _ => simp [Mem.effect, Mem.settled, Function.comp_def]

/-- **A report keeps memories with the same settled part alike.** -/
lemma Mem.effect_congr {m n : Mem σ Tid} (h : m.settled = n.settled) (t : Tid) (d : Did σ ρ) :
    (m.effect t d).settled = (n.effect t d).settled := by
  rw [← m.effect_settled, h, n.effect_settled]

/-- The completion of a future looks at the waker of a waiter object only. -/
lemma Mem.complete_settled (m : Mem σ Tid) (t : Tid) (f : TimerFuture) (r : Except TimeError Unit) :
    m.settled.complete t f.settled r = (m.complete t f r).settled := by
  have hfuture : (f.settled.complete r) = (f.complete r).settled := rfl
  simp only [Mem.complete, Mem.settled, settled_update, Option.map_some, hfuture]
  congr 1
  obtain ⟨d, r', w⟩ := f
  rcases w with _ | _ | _ | _ <;> rfl

/-- A Timer event changes the settled part alone. -/
lemma Mem.timer_settled (m : Mem σ Tid) (e : TimerEvent Tid) :
    m.settled.timer e = (m.timer e).map fun x => (x.1.settled, x.2) := by
  cases e with
  | tick d => rfl
  | complete t r =>
    have hfuture : m.settled.future t = (m.future t).map TimerFuture.settled := rfl
    cases hf : m.future t with
    | none => simp only [Mem.timer, hfuture, hf, Option.map_none]
    | some f =>
      simp only [Mem.timer, hfuture, hf, Option.map_some, m.complete_settled]
      split <;> rename_i hr
      · rw [if_pos (show f.result.isSome = true from hr), Option.map_none]
      · rw [if_neg (show ¬ f.result.isSome = true from hr), Option.map_some]
        rfl
  | wake a =>
    by_cases ha : a ∈ m.inFlight
    · simp [Mem.timer, Mem.settled, ha]
    · simp [Mem.timer, Mem.settled, ha]
  | spurious a =>
    by_cases ha : a ∈ m.handed
    · simp [Mem.timer, Mem.settled, ha]
    · simp [Mem.timer, Mem.settled, ha]

/-- **A Timer event keeps memories with the same settled part alike.** -/
lemma Mem.timer_congr {m n m' : Mem σ Tid} {e : TimerEvent Tid} {b : TimerDid Tid}
    (h : m.settled = n.settled) (he : m.timer e = some (m', b)) :
    ∃ n', n.timer e = some (n', b) ∧ m'.settled = n'.settled := by
  have hmap := m.timer_settled e
  rw [he, h, n.timer_settled, Option.map_some, Option.map_eq_some_iff] at hmap
  obtain ⟨⟨n', b'⟩, hn, heq⟩ := hmap
  obtain ⟨hsettled, rfl⟩ := Prod.mk.inj heq
  exact ⟨n', hn, hsettled.symm⟩

/-- Nothing can tell memories with the same settled part apart. -/
lemma settled_congruence (P : Program σ ρ Pc Choice) :
    (P.threads : Threads (Mem σ Tid) Tid Pc _ _ _ _ _).Congruence
      fun m n => m.settled = n.settled where
  symm := Eq.symm
  fire h t o p := (P.code p).fire_congr h t o
  effect h t d := Mem.effect_congr h t d
  ambient h ha := Mem.timer_congr h ha

end QubitLock
