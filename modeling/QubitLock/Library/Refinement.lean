import QubitLock.Library.Simulation

set_option relaxedAutoImplicit false
set_option autoImplicit false

/-!
# Refinement mappings

A concrete system refines an abstract one if its states can be read as abstract states such that every
concrete step is an abstract step or none at all. Then the abstract reading of a concrete run is an
abstract run, and what holds in every abstract run holds, read abstractly, in every concrete one.

Where one concrete step may need several abstract ones, or none, a relation takes the place of the
reading: every concrete step from related states is followed by an abstract run that shows the same.

For threads the reading is given by a function on memories and one on program counters, and by a
partial reading of the reports, choices and ambient reports; what has no reading is a step inside the
implementation.

## Main definitions

* `Threads.Conf.map` — a configuration read abstractly.
* `Threads.Label.view` — a label read abstractly.
* `Threads.Refines` — the obligations, one for each kind of step.
* `Threads.Accompanied` — one thread moves, and ambient events happen meanwhile.

## Main results

* `Lts.Run.refine` — the abstract reading of a run is a run.
* `Lts.Run.follow` — a run is followed by one that shows the same.
* `Threads.Refines.run` — the same for threads.
* `Threads.Accompanied.run` — what one thread does is a run of all threads.
-/

namespace Lts

variable {S₁ S₂ E₁ E₂ L₁ L₂ : Type*}

/-- **The abstract reading of a run is a run.**

**Proof sketch.** Induction on the run. A step that shows nothing leaves the abstract state where it is,
and every other step is matched by one step. -/
theorem Run.refine {step₁ : S₁ → E₁ → Option (S₁ × L₁)} {step₂ : S₂ → E₂ → Option (S₂ × L₂)}
    {init : S₁} (f : S₁ → S₂) (view : L₁ → Option L₂)
    (hstep : ∀ {tr s e s' l}, Run step₁ init tr s → step₁ s e = some (s', l) →
      view l = none ∧ f s' = f s ∨ ∃ e' l', view l = some l' ∧ step₂ (f s) e' = some (f s', l'))
    {tr : List L₁} {s : S₁} (h : Run step₁ init tr s) :
    Run step₂ (f init) (tr.filterMap view) (f s) := by
  induction h with
  | nil => exact .nil
  | cons e hr hs ih =>
    rcases hstep hr hs with ⟨hl, hf⟩ | ⟨e', l', hl, hs'⟩
    · rw [List.filterMap_cons_none hl, hf]
      exact ih
    · rw [List.filterMap_cons_some hl]
      exact .cons e' ih hs'

/-- **A run is followed by one that shows the same**, if every step from related runs is. Only the
labels in `ok` have to be followed.

**Proof sketch.** Induction on the run; the followers of the steps are joined, and what they show is
joined with them. -/
theorem Run.follow {L : Type*} {step₁ : S₁ → E₁ → Option (S₁ × L₁)}
    {step₂ : S₂ → E₂ → Option (S₂ × L₂)} {init₁ : S₁} {init₂ : S₂} (view₁ : L₁ → Option L)
    (view₂ : L₂ → Option L) (ok : L₁ → Prop) {R : List L₁ → S₁ → List L₂ → S₂ → Prop}
    (h₀ : R [] init₁ [] init₂)
    (hstep : ∀ {tr₁ s e s' l tr₂ t}, Run step₁ init₁ tr₁ s → Run step₂ init₂ tr₂ t → R tr₁ s tr₂ t →
      ok l → step₁ s e = some (s', l) → ∃ ls t', Run step₂ t ls t' ∧
        ls.filterMap view₂ = [l].filterMap view₁ ∧ R (l :: tr₁) s' (ls ++ tr₂) t')
    {tr₁ : List L₁} {s : S₁} (h : Run step₁ init₁ tr₁ s) (hok : ∀ l ∈ tr₁, ok l) :
    ∃ tr₂ t, Run step₂ init₂ tr₂ t ∧ tr₂.filterMap view₂ = tr₁.filterMap view₁ ∧ R tr₁ s tr₂ t := by
  induction h with
  | nil => exact ⟨[], init₂, .nil, rfl, h₀⟩
  | @cons tr₁ s s' l e hr hs ih =>
    obtain ⟨tr₂, t, hr₂, hview, hR⟩ := ih fun l' hl' => hok l' (List.mem_cons_of_mem _ hl')
    obtain ⟨ls, t', hls, hshow, hR'⟩ := hstep hr hr₂ hR (hok l List.mem_cons_self) hs
    refine ⟨ls ++ tr₂, t', hr₂.append hls, ?_, hR'⟩
    rw [List.filterMap_append, hshow, hview, ← List.filterMap_append, List.singleton_append]

end Lts

namespace Threads

variable {M₁ M₂ Tid Pc₁ Pc₂ O₁ O₂ D₁ D₂ C₁ C₂ A₁ A₂ B₁ B₂ : Type}

/-- A configuration read abstractly. -/
def Conf.map (f : M₁ → M₂) (g : Pc₁ → Pc₂) (c : Conf M₁ Tid Pc₁) : Conf M₂ Tid Pc₂ :=
  ⟨f c.mem, fun t => g (c.pc t)⟩

/-- A label read abstractly. -/
def Label.view (vd : D₁ → Option D₂) (vc : C₁ → Option C₂) (vb : B₁ → Option B₂) :
    Label Tid D₁ C₁ B₁ → Option (Label Tid D₂ C₂ B₂)
  | .did t d => (vd d).map (.did t)
  | .chose t x => (vc x).map (.chose t)
  | .ambient b => (vb b).map .ambient

variable [DecidableEq Tid]

/-- Moving one thread, read abstractly. -/
lemma map_update (g : Pc₁ → Pc₂) (pc : Tid → Pc₁) (t : Tid) (p : Pc₁) :
    (fun u => g (Function.update pc t p u)) = Function.update (fun u => g (pc u)) t (g p) :=
  Function.comp_update g pc t p

/-- **One obligation for each kind of step**, from a reachable configuration: it is a step of the
abstract threads, or it happens inside the implementation. -/
structure Refines (T₁ : Threads M₁ Tid Pc₁ O₁ D₁ C₁ A₁ B₁) (T₂ : Threads M₂ Tid Pc₂ O₂ D₂ C₂ A₂ B₂)
    (init : Conf M₁ Tid Pc₁) (f : M₁ → M₂) (g : Pc₁ → Pc₂) (vd : D₁ → Option D₂)
    (vc : C₁ → Option C₂) (vb : B₁ → Option B₂) : Prop where
  fire : ∀ {tr m pc t o d p}, T₁.Run init tr ⟨m, pc⟩ → T₁.fire m t o (pc t) = some (d, p) →
    vd d = none ∧ f (T₁.effect m t d) = f m ∧ g p = g (pc t) ∨
    ∃ o' d', vd d = some d' ∧ T₂.fire (f m) t o' (g (pc t)) = some (d', g p) ∧
      f (T₁.effect m t d) = T₂.effect (f m) t d'
  jump : ∀ {p x p'}, T₁.jump p x = some p' →
    vc x = none ∧ g p' = g p ∨ ∃ x', vc x = some x' ∧ T₂.jump (g p) x' = some (g p')
  ambient : ∀ {m a m' b}, T₁.ambient m a = some (m', b) →
    vb b = none ∧ f m' = f m ∨ ∃ a' b', vb b = some b' ∧ T₂.ambient (f m) a' = some (f m', b')

variable {T₁ : Threads M₁ Tid Pc₁ O₁ D₁ C₁ A₁ B₁} {T₂ : Threads M₂ Tid Pc₂ O₂ D₂ C₂ A₂ B₂}
  {init : Conf M₁ Tid Pc₁} {f : M₁ → M₂} {g : Pc₁ → Pc₂} {vd : D₁ → Option D₂} {vc : C₁ → Option C₂}
  {vb : B₁ → Option B₂}

/-- **The abstract reading of a run of threads is a run.**

**Proof sketch.** By `Lts.Run.refine`, with one case for each kind of step. A step that the reading
hides changes neither the memory nor the place that is read. -/
theorem Refines.run (h : Refines T₁ T₂ init f g vd vc vb) {tr : List (Label Tid D₁ C₁ B₁)}
    {c : Conf M₁ Tid Pc₁} (hr : T₁.Run init tr c) :
    T₂.Run (init.map f g) (tr.filterMap (Label.view vd vc vb)) (c.map f g) := by
  refine Lts.Run.refine (Conf.map f g) (Label.view vd vc vb) ?_ hr
  rintro tr ⟨m, pc⟩ e c' l hr hs
  rcases T₁.step_eq_some hs with ⟨t, o, d, p, -, hf, rfl, rfl⟩ | ⟨t, x, p, -, hj, rfl, rfl⟩ |
    ⟨a, m', b, -, ha, rfl, rfl⟩
  · rcases h.fire hr hf with ⟨hd, hmem, hp⟩ | ⟨o', d', hd, hf', hmem⟩
    · refine .inl ⟨by simp [Label.view, hd], ?_⟩
      simp only [Conf.map, map_update, hmem, hp, Function.update_eq_self]
    · refine .inr ⟨.run t o', .did t d', by simp [Label.view, hd], ?_⟩
      simp only [Conf.map, map_update, hmem]
      exact T₂.step_run hf'
  · rcases h.jump hj with ⟨hx, hp⟩ | ⟨x', hx, hj'⟩
    · refine .inl ⟨by simp [Label.view, hx], ?_⟩
      simp only [Conf.map, map_update, hp, Function.update_eq_self]
    · refine .inr ⟨.choose t x', .chose t x', by simp [Label.view, hx], ?_⟩
      simp only [Conf.map, map_update]
      exact T₂.step_choose hj'
  · rcases h.ambient ha with ⟨hb, hmem⟩ | ⟨a', b', hb, ha'⟩
    · refine .inl ⟨by simp [Label.view, hb], ?_⟩
      simp only [Conf.map, hmem]
    · refine .inr ⟨.ambient a', .ambient b', by simp [Label.view, hb], ?_⟩
      exact T₂.step_ambient ha'

section Accompanied

variable {M Pc O D C A B : Type} {T : Threads M Tid Pc O D C A B} {t : Tid}

omit [DecidableEq Tid] in
/-- Thread `t` fires primitives and ambient events happen, while all other threads stand still; labels,
newest first. -/
inductive Accompanied (T : Threads M Tid Pc O D C A B) (t : Tid) (m : M) (p : Pc) :
    List (Label Tid D C B) → M → Pc → Prop
  | nil : Accompanied T t m p [] m p
  | fire {ls : List (Label Tid D C B)} {m' : M} {p' p'' : Pc} {d : D} (o : O) :
      Accompanied T t m p ls m' p' → T.fire m' t o p' = some (d, p'') →
      Accompanied T t m p (.did t d :: ls) (T.effect m' t d) p''
  | ambient {ls : List (Label Tid D C B)} {m' m'' : M} {p' : Pc} {b : B} (a : A) :
      Accompanied T t m p ls m' p' → T.ambient m' a = some (m'', b) →
      Accompanied T t m p (.ambient b :: ls) m'' p'

omit [DecidableEq Tid] in
lemma Accompanied.append {m m' m'' : M} {p p' p'' : Pc} {ls ls' : List (Label Tid D C B)}
    (h : T.Accompanied t m p ls m' p') (h' : T.Accompanied t m' p' ls' m'' p'') :
    T.Accompanied t m p (ls' ++ ls) m'' p'' := by
  induction h' with
  | nil => exact h
  | fire o _ hf ih => exact ih.fire o hf
  | ambient a _ ha ih => exact ih.ambient a ha

/-- **What one thread does is a run of all threads.** -/
lemma Accompanied.run {m m' : M} {p p' : Pc} {ls : List (Label Tid D C B)} {pc : Tid → Pc}
    (hp : pc t = p) (h : T.Accompanied t m p ls m' p') :
    T.Run ⟨m, pc⟩ ls ⟨m', Function.update pc t p'⟩ := by
  induction h with
  | nil =>
    rw [← hp, Function.update_eq_self]
    exact .nil
  | @fire ls m' p' p'' d o _ hf ih =>
    have hfire : T.fire m' t o (Function.update pc t p' t) = some (d, p'') := by
      rwa [Function.update_self]
    have hs := T.step_run hfire
    rw [Function.update_idem] at hs
    exact .cons _ ih hs
  | ambient a _ ha ih => exact .cons _ ih (T.step_ambient ha)

end Accompanied

end Threads
