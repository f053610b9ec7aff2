import Mathlib.Logic.Function.Basic
import QubitLock.Library.Run

set_option relaxedAutoImplicit false
set_option autoImplicit false

/-!
# Interleavings of threads over shared memory

Any number of threads run small programs over one shared memory `M`. A thread is at a program
counter of type `Pc`. Three kinds of steps interleave:

* a thread *fires* the primitive at its program counter: it reports what it did (`D`) and moves
  on; the effect on the memory is a function of the report;
* a thread's environment makes a *choice* for it (`C`), which only moves its program counter;
* an *ambient* event changes the memory without any thread (`A`, reported as `B`).

The effect of a primitive depends on the report alone, so the trace of a run determines its
memory, and an invariant is proved once per report instead of once per program counter.

A *typing* of the program counters assigns each one the resources its thread owns. When every
fired report is a typing step, the resources of the threads are a function of the trace.

## Main definitions

* `Threads` — the primitives, choices and ambient events of a family of threads.
* `Threads.step` — one step of the interleaving semantics.
* `Threads.Typing` — program counters typed by resources that follow the reports.

## Main results

* `Threads.step_eq_some` — what one step can do.
* `Threads.Run.rule` — the invariant rule with one obligation for each kind of step.
* `Threads.exists_run_of_play` — a successful script is a run.
-/

/-- A family of threads over a memory `M`: `O` is the outcome of the outside world that a
primitive may read, `D` what a fired primitive reports, `C` the choices made for a thread, `A`
the ambient events and `B` their reports. -/
structure Threads (M Tid Pc O D C A B : Type) where
  /-- The primitive at a program counter: its report and the next program counter, or `none`
  when the thread has to wait. -/
  fire : M → Tid → O → Pc → Option (D × Pc)
  /-- The effect of a reported primitive on the memory. -/
  effect : M → Tid → D → M
  /-- A choice made for a thread. -/
  jump : Pc → C → Option Pc
  /-- An ambient event. -/
  ambient : M → A → Option (M × B)

namespace Threads

variable {M Tid Pc O D C A B : Type}

/-- A configuration: the shared memory and every thread's program counter. -/
structure Conf (M Tid Pc : Type) where
  /-- The shared memory. -/
  mem : M
  /-- The program counters. -/
  pc : Tid → Pc

/-- The event that the scheduler picks. -/
inductive Event (Tid O C A : Type) where
  | run (t : Tid) (o : O)
  | choose (t : Tid) (c : C)
  | ambient (a : A)

/-- The thread that an event moves. -/
def Event.thread : Event Tid O C A → Option Tid
  | .run t _ => some t
  | .choose t _ => some t
  | .ambient _ => none

/-- What a step reports. -/
inductive Label (Tid D C B : Type) where
  | did (t : Tid) (d : D)
  | chose (t : Tid) (c : C)
  | ambient (b : B)

variable [DecidableEq Tid] (T : Threads M Tid Pc O D C A B)

/-- One step of the interleaving. -/
def step (c : Conf M Tid Pc) : Event Tid O C A → Option (Conf M Tid Pc × Label Tid D C B)
  | .run t o => (T.fire c.mem t o (c.pc t)).map fun (d, p) =>
      (⟨T.effect c.mem t d, Function.update c.pc t p⟩, .did t d)
  | .choose t x => (T.jump (c.pc t) x).map fun p =>
      (⟨c.mem, Function.update c.pc t p⟩, .chose t x)
  | .ambient a => (T.ambient c.mem a).map fun (m, b) => (⟨m, c.pc⟩, .ambient b)

/-- **What one step can do**: a thread fires its primitive, a choice moves a thread, or an
ambient event changes the memory. -/
lemma step_eq_some {c c' : Conf M Tid Pc} {e : Event Tid O C A} {l : Label Tid D C B}
    (h : T.step c e = some (c', l)) :
    (∃ t o d p, e = .run t o ∧ T.fire c.mem t o (c.pc t) = some (d, p) ∧
      c' = ⟨T.effect c.mem t d, Function.update c.pc t p⟩ ∧ l = .did t d) ∨
    (∃ t x p, e = .choose t x ∧ T.jump (c.pc t) x = some p ∧
      c' = ⟨c.mem, Function.update c.pc t p⟩ ∧ l = .chose t x) ∨
    (∃ a m b, e = .ambient a ∧ T.ambient c.mem a = some (m, b) ∧ c' = ⟨m, c.pc⟩ ∧
      l = .ambient b) := by
  cases e with
  | run t o =>
    simp only [step, Option.map_eq_some_iff, Prod.mk.injEq] at h
    obtain ⟨⟨d, p⟩, hf, rfl, rfl⟩ := h
    exact .inl ⟨t, o, d, p, rfl, hf, rfl, rfl⟩
  | choose t x =>
    simp only [step, Option.map_eq_some_iff, Prod.mk.injEq] at h
    obtain ⟨p, hj, rfl, rfl⟩ := h
    exact .inr (.inl ⟨t, x, p, rfl, hj, rfl, rfl⟩)
  | ambient a =>
    simp only [step, Option.map_eq_some_iff, Prod.mk.injEq] at h
    obtain ⟨⟨m, b⟩, ha, rfl, rfl⟩ := h
    exact .inr (.inr ⟨a, m, b, rfl, ha, rfl, rfl⟩)

/-- A thread that can fire its primitive makes a step. -/
lemma step_run {m : M} {pc : Tid → Pc} {t : Tid} {o : O} {d : D} {p : Pc}
    (h : T.fire m t o (pc t) = some (d, p)) :
    T.step ⟨m, pc⟩ (.run t o) = some (⟨T.effect m t d, Function.update pc t p⟩, .did t d) := by
  simp only [step, h, Option.map_some]

/-- A possible choice is a step. -/
lemma step_choose {m : M} {pc : Tid → Pc} {t : Tid} {x : C} {p : Pc}
    (h : T.jump (pc t) x = some p) :
    T.step ⟨m, pc⟩ (.choose t x) = some (⟨m, Function.update pc t p⟩, .chose t x) := by
  simp only [step, h, Option.map_some]

/-- A possible ambient event is a step. -/
lemma step_ambient {m m' : M} {pc : Tid → Pc} {a : A} {b : B}
    (h : T.ambient m a = some (m', b)) :
    T.step ⟨m, pc⟩ (.ambient a) = some (⟨m', pc⟩, .ambient b) := by
  simp only [step, h, Option.map_some]

/-- Moving one thread on both sides keeps all program counters related. -/
lemma related_update {Pc₁ Pc₂ : Type} {F : Pc₁ → Pc₂ → Prop} {pc₁ : Tid → Pc₁} {pc₂ : Tid → Pc₂}
    (hF : ∀ u, F (pc₁ u) (pc₂ u)) {t : Tid} {p : Pc₁} {q : Pc₂} (hpq : F p q) (u : Tid) :
    F (Function.update pc₁ t p u) (Function.update pc₂ t q u) := by
  by_cases hut : u = t
  · subst hut
    rw [Function.update_self, Function.update_self]
    exact hpq
  · rw [Function.update_of_ne hut, Function.update_of_ne hut]
    exact hF u

/-- The runs of the threads from a configuration. -/
abbrev Run (init : Conf M Tid Pc) : List (Label Tid D C B) → Conf M Tid Pc → Prop :=
  Lts.Run T.step init

/-- **The invariant rule for threads**: one obligation for a fired primitive, one for a choice
and one for an ambient event. -/
theorem Run.rule {init : Conf M Tid Pc}
    {I : List (Label Tid D C B) → M → (Tid → Pc) → Prop} (h₀ : I [] init.mem init.pc)
    (hfire : ∀ {tr m pc t o d p}, T.Run init tr ⟨m, pc⟩ → I tr m pc →
      T.fire m t o (pc t) = some (d, p) →
      I (.did t d :: tr) (T.effect m t d) (Function.update pc t p))
    (hjump : ∀ {tr m pc t x p}, T.Run init tr ⟨m, pc⟩ → I tr m pc → T.jump (pc t) x = some p →
      I (.chose t x :: tr) m (Function.update pc t p))
    (hamb : ∀ {tr m pc a m' b}, T.Run init tr ⟨m, pc⟩ → I tr m pc →
      T.ambient m a = some (m', b) → I (.ambient b :: tr) m' pc)
    {tr : List (Label Tid D C B)} {c : Conf M Tid Pc} (h : T.Run init tr c) :
    I tr c.mem c.pc := by
  refine Lts.Run.invariant (I := fun tr c => I tr c.mem c.pc) h₀ ?_ h
  intro tr c e c' l hr hi hs
  rcases T.step_eq_some hs with ⟨t, o, d, p, -, hf, rfl, rfl⟩ | ⟨t, x, p, -, hj, rfl, rfl⟩ |
    ⟨a, m, b, -, ha, rfl, rfl⟩
  · exact hfire hr hi hf
  · exact hjump hr hi hj
  · exact hamb hr hi ha

/-- The choices that a played script reports are choices of the script. -/
lemma choose_mem_of_play {s s' : Conf M Tid Pc × List (Label Tid D C B)}
    {es : List (Event Tid O C A)} (h : Lts.play T.step s es = some s') {t : Tid} {x : C}
    (hx : .chose t x ∈ s'.2) : .chose t x ∈ s.2 ∨ .choose t x ∈ es := by
  induction es generalizing s with
  | nil =>
    obtain rfl : s = s' := by simpa [Lts.play] using h
    exact .inl hx
  | cons e es ih =>
    simp only [Lts.play] at h
    split at h
    · cases h
    · rename_i c' l he
      rcases ih h with hmem | hmem
      · rcases List.mem_cons.mp hmem with rfl | hmem
        · rcases T.step_eq_some he with ⟨_, _, _, _, -, -, -, hl⟩ | ⟨t', x', _, rfl, -, -, hl⟩ |
            ⟨_, _, _, -, -, -, hl⟩
          · cases hl
          · cases hl
            exact .inr List.mem_cons_self
          · cases hl
        · exact .inl hmem
      · exact .inr (List.mem_cons_of_mem _ hmem)

/-- A script whose end satisfies a checkable property gives a run with that property, in which no
other choices are made than in the script. -/
theorem exists_run_of_play (init : Conf M Tid Pc) (es : List (Event Tid O C A))
    {p : Conf M Tid Pc × List (Label Tid D C B) → Bool}
    (h : (Lts.play T.step (init, []) es).any p = true) :
    ∃ tr c, T.Run init tr c ∧ p (c, tr) = true ∧ ∀ t x, .chose t x ∈ tr → .choose t x ∈ es := by
  rw [Option.any_eq_true] at h
  obtain ⟨⟨c, tr⟩, hplay, hp⟩ := h
  refine ⟨tr, c, Lts.Run.play (c := (init, [])) .nil hplay, hp, fun t x hx => ?_⟩
  exact (T.choose_mem_of_play hplay hx).resolve_left (by simp)

/-- A typing of the program counters by resources `R`: a report relates the resources before and
after it (`Next`), every primitive that fires in a memory that `Agrees` with its thread's
resources is such a step, and a choice keeps the resources. -/
structure Typing (R : Type) (Agrees : M → Tid → R → Prop) (Next : R → D → R → Prop) where
  /-- The resources of a thread at a program counter. -/
  typ : Pc → R
  /-- A fired primitive is a typing step. -/
  fire_next : ∀ {m t o p d p'}, Agrees m t (typ p) → T.fire m t o p = some (d, p') →
    Next (typ p) d (typ p')
  /-- A choice keeps the resources. -/
  jump_typ : ∀ {p x p'}, T.jump p x = some p' → typ p' = typ p

end Threads
