import QubitLock.Library.Threads

set_option relaxedAutoImplicit false
set_option autoImplicit false

/-!
# Weak simulations

Two steppers with the same labels, some of which are *hidden*. A weak simulation relates their states
such that every step of the first is matched by a run of the second with the same visible labels. It
carries over from steps to runs: what one system shows, the other one can show.

For threads over a shared memory the case of interest is a change in one thread only. All other
threads and the ambient events go in lockstep, so it is enough to relate the two pieces of code.

## Main definitions

* `Lts.visible` — the labels of a trace that are not hidden.
* `Lts.WeakSimulation` — a relation that keeps the visible labels.
* `Lts.Mimics` — one state can show what another one shows, and ends in a state that matches.
* `Threads.Replaces` — two pieces of code for one thread that can follow each other.
* `Threads.Interchangeable` — two configurations that mimic each other.

## Main results

* `Lts.Run.append` — runs can be continued.
* `Lts.WeakSimulation.mimics` — a simulating state mimics the simulated one.
* `Threads.Alongside.lockstep` — the other threads do the same on both sides.
* `Threads.Replaces.interchangeable` — related code is interchangeable, whatever the others do.
* `Threads.Run.rechoose` — a choice of a thread can be replaced, or be made later.
-/

namespace Lts

variable {S S₁ S₂ E E₁ E₂ L : Type*}

/-- A run can be continued by a run from its end. -/
lemma Run.append {step : S → E → Option (S × L)} {s s' s'' : S} {tr tr' : List L}
    (h : Run step s tr s') (h' : Run step s' tr' s'') : Run step s (tr' ++ tr) s'' := by
  induction h' with
  | nil => exact h
  | cons e _ hs ih => exact .cons e ih hs

/-- A single step is a run. -/
lemma Run.single {step : S → E → Option (S × L)} {s s' : S} {l : L} (e : E)
    (h : step s e = some (s', l)) : Run step s [l] s' :=
  .cons e .nil h

/-- The labels of a trace that are not hidden. -/
def visible (hidden : L → Bool) (tr : List L) : List L := tr.filter fun l => !hidden l

lemma visible_append (hidden : L → Bool) (tr tr' : List L) :
    visible hidden (tr ++ tr') = visible hidden tr ++ visible hidden tr' :=
  List.filter_append _ _

variable (step₁ : S₁ → E₁ → Option (S₁ × L)) (step₂ : S₂ → E₂ → Option (S₂ × L))
  (hidden : L → Bool)

/-- Every step from a related state is matched by a run with the same visible labels that ends in a
related state. -/
def WeakSimulation (R : S₁ → S₂ → Prop) : Prop :=
  ∀ s t e s' l, R s t → step₁ s e = some (s', l) →
    ∃ tr t', Run step₂ t tr t' ∧ visible hidden tr = visible hidden [l] ∧ R s' t'

/-- Every run from `s` has a run from `t` with the same visible labels whose end matches its own. -/
def Mimics (Match : S₁ → S₂ → Prop) (t : S₂) (s : S₁) : Prop :=
  ∀ tr s', Run step₁ s tr s' →
    ∃ tr' t', Run step₂ t tr' t' ∧ visible hidden tr' = visible hidden tr ∧ Match s' t'

variable {step₁ step₂ hidden}

/-- **A simulating state mimics the simulated one.**

**Proof sketch.** Induction on the run, with the relation carried along; the answers to the single steps
are joined. -/
theorem WeakSimulation.mimics {R Match : S₁ → S₂ → Prop}
    (h : WeakSimulation step₁ step₂ hidden R) (hmatch : ∀ {s t}, R s t → Match s t) {s : S₁} {t : S₂}
    (hR : R s t) : Mimics step₁ step₂ hidden Match t s := by
  suffices hrun : ∀ tr s', Run step₁ s tr s' →
      ∃ tr' t', Run step₂ t tr' t' ∧ visible hidden tr' = visible hidden tr ∧ R s' t' by
    intro tr s' hr
    obtain ⟨tr', t', hr', hv, hR'⟩ := hrun tr s' hr
    exact ⟨tr', t', hr', hv, hmatch hR'⟩
  intro tr s' hr
  induction hr with
  | nil => exact ⟨[], t, .nil, rfl, hR⟩
  | @cons tr s₁ s₂ l e hr hs ih =>
    obtain ⟨tr', t₁, hr', hv, hR₁⟩ := ih
    obtain ⟨tr'', t₂, hr'', hv', hR₂⟩ := h _ _ _ _ _ hR₁ hs
    refine ⟨tr'' ++ tr', t₂, hr'.append hr'', ?_, hR₂⟩
    rw [visible_append, hv, hv', ← visible_append, List.singleton_append]

end Lts

/-! ## Replacing the code of one thread -/

namespace Threads

open Lts

variable {M Tid Pc O D C A B : Type}

/-- Thread `u` fires primitives while everything else stands still; reports, newest first. -/
inductive Solo (T : Threads M Tid Pc O D C A B) (u : Tid) (m : M) (p : Pc) : List D → M → Pc → Prop
  | nil : Solo T u m p [] m p
  | cons {ds : List D} {m' : M} {p' p'' : Pc} {d : D} (o : O) :
      Solo T u m p ds m' p' → T.fire m' u o p' = some (d, p'') →
      Solo T u m p (d :: ds) (T.effect m' u d) p''

/-- Thread `u` can reach a goal alone, reporting `d` and otherwise only what is hidden. -/
def Catches (T : Threads M Tid Pc O D C A B) (u : Tid) (h : D → Bool) (m : M) (p : Pc) (d : D)
    (Goal : M → Pc → Prop) : Prop :=
  ∃ ds m' p', T.Solo u m p ds m' p' ∧ (ds.filter fun d => !h d) = ([d].filter fun d => !h d) ∧
    Goal m' p'

/-- Memories that no thread and no ambient event can tell apart. -/
structure Congruence (T : Threads M Tid Pc O D C A B) (E : M → M → Prop) : Prop where
  symm : ∀ {m n}, E m n → E n m
  fire : ∀ {m n}, E m n → ∀ t o p, T.fire m t o p = T.fire n t o p
  effect : ∀ {m n}, E m n → ∀ t d, E (T.effect m t d) (T.effect n t d)
  ambient : ∀ {m n m' a b}, E m n → T.ambient m a = some (m', b) →
    ∃ n', T.ambient n a = some (n', b) ∧ E m' n'

/-- Two configurations that differ in the program counter of thread `u` only, up to memories that
cannot be told apart. -/
structure Alongside (E : M → M → Prop) (u : Tid) (c c' : Conf M Tid Pc) : Prop where
  mem : E c.mem c'.mem
  others : ∀ t ≠ u, c.pc t = c'.pc t

section Catches

variable {T : Threads M Tid Pc O D C A B} {u : Tid} {h : D → Bool} {m : M} {p p' : Pc} {d : D}
  {Goal : M → Pc → Prop}

/-- A thread that fires first and then goes on. -/
lemma Solo.head {ds : List D} {m' : M} {q : Pc} {o : O} (hf : T.fire m u o p = some (d, p'))
    (hs : T.Solo u (T.effect m u d) p' ds m' q) : T.Solo u m p (ds ++ [d]) m' q := by
  induction hs with
  | nil => exact .cons o .nil hf
  | cons o' _ hf' ih => exact .cons o' ih hf'

/-- The report itself. -/
lemma Catches.of_fire (o : O) (hf : T.fire m u o p = some (d, p')) (hg : Goal (T.effect m u d) p') :
    T.Catches u h m p d Goal :=
  ⟨[d], _, _, .cons o .nil hf, rfl, hg⟩

/-- A hidden report need not be made. -/
lemma Catches.skip (hd : h d = true) (hg : Goal m p) : T.Catches u h m p d Goal :=
  ⟨[], m, p, .nil, by simp [hd], hg⟩

/-- A hidden report may be made first. -/
lemma Catches.probe {d₀ : D} (o : O) (hf : T.fire m u o p = some (d₀, p')) (hd₀ : h d₀ = true)
    (hc : T.Catches u h (T.effect m u d₀) p' d Goal) : T.Catches u h m p d Goal := by
  obtain ⟨ds, m', q, hs, hds, hg⟩ := hc
  refine ⟨ds ++ [d₀], m', q, hs.head hf, ?_, hg⟩
  rw [List.filter_append, hds]
  simp [hd₀]

end Catches

variable [DecidableEq Tid] {T : Threads M Tid Pc O D C A B} {E : M → M → Prop} {u : Tid}

/-- What a thread does alone is a run of all threads. -/
lemma Solo.run {m m' : M} {p p' : Pc} {ds : List D} {pc : Tid → Pc} (hp : pc u = p)
    (h : T.Solo u m p ds m' p') :
    T.Run ⟨m, pc⟩ (ds.map (.did u)) ⟨m', Function.update pc u p'⟩ := by
  induction h with
  | nil =>
    rw [← hp, Function.update_eq_self]
    exact .nil
  | @cons ds m' p' p'' d o hsolo hf ih =>
    have hfire : T.fire m' u o (Function.update pc u p' u) = some (d, p'') := by
      rwa [Function.update_self]
    have hs := T.step_run hfire
    rw [Function.update_idem] at hs
    exact .cons _ ih hs

omit [DecidableEq Tid] in
lemma Alongside.symm (hE : T.Congruence E) {c c' : Conf M Tid Pc} (h : Alongside E u c c') :
    Alongside E u c' c :=
  ⟨hE.symm h.mem, fun t ht => (h.others t ht).symm⟩

/-- Moving thread `u` on both sides changes nothing for the others. -/
lemma Alongside.update {m n m' n' : M} {pc pc' : Tid → Pc} {p q : Pc}
    (h : Alongside E u ⟨m, pc⟩ ⟨n, pc'⟩) (hE : E m' n') :
    Alongside E u ⟨m', Function.update pc u p⟩ ⟨n', Function.update pc' u q⟩ := by
  refine ⟨hE, fun t ht => ?_⟩
  show Function.update pc u p t = Function.update pc' u q t
  rw [Function.update_of_ne ht, Function.update_of_ne ht]
  exact h.others t ht

/-- **Lockstep**: an event that does not move thread `u` does the same on both sides. -/
lemma Alongside.lockstep (hE : T.Congruence E) {c c' d : Conf M Tid Pc} {e : Event Tid O C A}
    {l : Label Tid D C B} (h : Alongside E u c c') (hs : T.step c e = some (d, l))
    (he : e.thread ≠ some u) :
    ∃ d', T.step c' e = some (d', l) ∧ Alongside E u d d' ∧ d.pc u = c.pc u ∧ d'.pc u = c'.pc u := by
  have hmoved : ∀ {t : Tid} (p : Pc), ∀ v ≠ u,
      Function.update c.pc t p v = Function.update c'.pc t p v := by
    intro t p v hv
    by_cases hvt : v = t
    · rw [hvt, Function.update_self, Function.update_self]
    · rw [Function.update_of_ne hvt, Function.update_of_ne hvt, h.others v hv]
  rcases T.step_eq_some hs with ⟨t, o, d, p, rfl, hf, rfl, rfl⟩ | ⟨t, x, p, rfl, hj, rfl, rfl⟩ |
    ⟨a, m', b, rfl, ha, rfl, rfl⟩
  · have htu : t ≠ u := fun htu => he (congrArg some htu)
    rw [h.others t htu, hE.fire h.mem] at hf
    exact ⟨_, T.step_run hf, ⟨hE.effect h.mem t d, hmoved p⟩,
      Function.update_of_ne htu.symm _ _, Function.update_of_ne htu.symm _ _⟩
  · have htu : t ≠ u := fun htu => he (congrArg some htu)
    rw [h.others t htu] at hj
    exact ⟨_, T.step_choose hj, ⟨h.mem, hmoved p⟩,
      Function.update_of_ne htu.symm _ _, Function.update_of_ne htu.symm _ _⟩
  · obtain ⟨n', hn', hmem⟩ := hE.ambient h.mem ha
    exact ⟨_, T.step_ambient hn', ⟨hmem, h.others⟩, rfl, rfl⟩

/-- Some reports of thread `u` are hidden. -/
def hides (u : Tid) (h : D → Bool) : Label Tid D C B → Bool
  | .did t d => decide (t = u) && h d
  | _ => false

/-- The visible reports of a thread. -/
lemma visible_map_did (h : D → Bool) (ds : List D) :
    visible (hides u h) (ds.map (.did u) : List (Label Tid D C B)) =
      (ds.filter fun d => !h d).map (.did u) := by
  rw [visible, List.filter_map]
  congr 1
  simp [Function.comp_def, hides]

/-- A relation `Self` between two program counters of thread `u`, in the memory of the first, that
nobody else breaks, and that each of the two can restore when the other one moves. -/
structure Replaces (T : Threads M Tid Pc O D C A B) (init : Conf M Tid Pc) (E : M → M → Prop)
    (u : Tid) (h : D → Bool) (Self : M → Pc → Pc → Prop) : Prop where
  congr : T.Congruence E
  other : ∀ {tr c e c' l q}, T.Run init tr c → T.step c e = some (c', l) → e.thread ≠ some u →
    Self c.mem (c.pc u) q → Self c'.mem (c.pc u) q
  jump : ∀ {m p q x p'}, Self m p q → T.jump p x = some p' →
    ∃ q', T.jump q x = some q' ∧ Self m p' q'
  jump_symm : ∀ {m p q x q'}, Self m p q → T.jump q x = some q' →
    ∃ p', T.jump p x = some p' ∧ Self m p' q'
  fire : ∀ {tr m pc n q o d p}, T.Run init tr ⟨m, pc⟩ → Self m (pc u) q → E m n →
    T.fire m u o (pc u) = some (d, p) →
    T.Catches u h n q d fun n' q' => E (T.effect m u d) n' ∧ Self (T.effect m u d) p q'
  fire_symm : ∀ {tr m pc n q o d q'}, T.Run init tr ⟨m, pc⟩ → Self m (pc u) q → E m n →
    T.fire n u o q = some (d, q') →
    T.Catches u h m (pc u) d fun m' p' => E m' (T.effect n u d) ∧ Self m' p' q'

/-- Two configurations, the first one reachable, whose program counters of thread `u` are related. -/
structure Agree (T : Threads M Tid Pc O D C A B) (init : Conf M Tid Pc) (E : M → M → Prop) (u : Tid)
    (Self : M → Pc → Pc → Prop) (c c' : Conf M Tid Pc) : Prop where
  reach : ∃ tr, T.Run init tr c
  alongside : Alongside E u c c'
  self : Self c.mem (c.pc u) (c'.pc u)

/-- Whatever one configuration shows, but for the hidden reports of thread `u`, the other one can
show, and they end alike. -/
def Interchangeable (T : Threads M Tid Pc O D C A B) (E : M → M → Prop) (u : Tid) (h : D → Bool)
    (c c' : Conf M Tid Pc) : Prop :=
  Mimics T.step T.step (hides u h) (Alongside E u) c' c ∧
    Mimics T.step T.step (hides u h) (Alongside E u) c c'

section Replaces

variable {init : Conf M Tid Pc} {h : D → Bool} {Self : M → Pc → Pc → Prop}

/-- An event moves thread `u`, or it does not. -/
lemma step_cases (u : Tid) {c c' : Conf M Tid Pc} {e : Event Tid O C A} {l : Label Tid D C B}
    (hs : T.step c e = some (c', l)) :
    (∃ o d p, T.fire c.mem u o (c.pc u) = some (d, p) ∧
      c' = ⟨T.effect c.mem u d, Function.update c.pc u p⟩ ∧ l = .did u d) ∨
    (∃ x p, T.jump (c.pc u) x = some p ∧ c' = ⟨c.mem, Function.update c.pc u p⟩ ∧
      l = .chose u x) ∨ e.thread ≠ some u := by
  rcases T.step_eq_some hs with ⟨t, o, d, p, rfl, hf, rfl, rfl⟩ | ⟨t, x, p, rfl, hj, rfl, rfl⟩ |
    ⟨a, m', b, rfl, ha, rfl, rfl⟩
  · by_cases htu : t = u
    · subst htu
      exact .inl ⟨o, d, p, hf, rfl, rfl⟩
    · exact .inr (.inr fun he => htu (Option.some.inj he))
  · by_cases htu : t = u
    · subst htu
      exact .inr (.inl ⟨x, p, hj, rfl, rfl⟩)
    · exact .inr (.inr fun he => htu (Option.some.inj he))
  · exact .inr (.inr fun he => (by cases he))

/-- The second configuration follows the first. -/
theorem Replaces.forward (hR : T.Replaces init E u h Self) :
    WeakSimulation T.step T.step (hides u h) (T.Agree init E u Self) := by
  intro c c' e d l hA hs
  obtain ⟨⟨tr, hr⟩, halong, hself⟩ := hA
  have hr' : T.Run init (l :: tr) d := .cons e hr hs
  rcases step_cases u hs with ⟨o, rep, p, hf, rfl, rfl⟩ | ⟨x, p, hj, rfl, rfl⟩ | he
  · obtain ⟨ds, n', q', hsolo, hds, hmem, hself'⟩ := hR.fire hr hself halong.mem hf
    refine ⟨_, _, hsolo.run rfl, ?_, ⟨_, hr'⟩, halong.update hmem, ?_⟩
    · rw [visible_map_did, hds]
      exact (visible_map_did h [rep]).symm
    · simpa only [Function.update_self] using hself'
  · obtain ⟨q', hq', hself'⟩ := hR.jump hself hj
    refine ⟨_, _, .single _ (T.step_choose hq'), rfl, ⟨_, hr'⟩, halong.update halong.mem, ?_⟩
    simpa only [Function.update_self] using hself'
  · obtain ⟨d', hs', halong', hd, hd'⟩ := halong.lockstep hR.congr hs he
    refine ⟨_, _, .single _ hs', rfl, ⟨_, hr'⟩, halong', ?_⟩
    rw [hd, hd']
    exact hR.other hr hs he hself

/-- The first configuration follows the second. -/
theorem Replaces.backward (hR : T.Replaces init E u h Self) :
    WeakSimulation T.step T.step (hides u h) fun c' c => T.Agree init E u Self c c' := by
  intro c' c e d' l hA hs
  obtain ⟨⟨tr, hr⟩, halong, hself⟩ := hA
  rcases step_cases u hs with ⟨o, rep, q, hf, rfl, rfl⟩ | ⟨x, q, hj, rfl, rfl⟩ | he
  · obtain ⟨ds, m', p', hsolo, hds, hmem, hself'⟩ := hR.fire_symm hr hself halong.mem hf
    have hrun := hsolo.run rfl
    refine ⟨_, _, hrun, ?_, ⟨_, hr.append hrun⟩, halong.update hmem, ?_⟩
    · rw [visible_map_did, hds]
      exact (visible_map_did h [rep]).symm
    · simpa only [Function.update_self] using hself'
  · obtain ⟨p', hp', hself'⟩ := hR.jump_symm hself hj
    have hrun := T.step_choose (m := c.mem) hp'
    refine ⟨_, _, .single _ hrun, rfl, ⟨_, hr.cons _ hrun⟩, halong.update halong.mem, ?_⟩
    simpa only [Function.update_self] using hself'
  · obtain ⟨d, hs', halong', hd', hd⟩ := (halong.symm hR.congr).lockstep hR.congr hs he
    refine ⟨_, _, .single _ hs', rfl, ⟨_, hr.cons _ hs'⟩, halong'.symm hR.congr, ?_⟩
    rw [hd, hd']
    exact hR.other hr hs' he hself

/-- **Related program counters are interchangeable.** -/
theorem Replaces.interchangeable (hR : T.Replaces init E u h Self) {c c' : Conf M Tid Pc}
    (hA : T.Agree init E u Self c c') : T.Interchangeable E u h c c' :=
  ⟨hR.forward.mimics (fun hA => hA.alongside) hA,
    hR.backward.mimics (fun hA => hA.alongside.symm hR.congr) hA⟩

end Replaces

/-- **Replacing a choice.** While thread `u` is where only the choice `x` and the reports after it can
have led (`R`), its choice can be replaced by other labels `L` that lead to the twin.

**Proof sketch.** Induction on the run. The choice itself is replaced by `L`. After it the thread is
where its primitives led it, so they can be fired from the twin as well, and the steps of the other
threads and the ambient events do not depend on where the thread is. -/
theorem Run.rechoose {init : Conf M Tid Pc} {R : Pc → Pc → Prop} {x : C}
    {L : List (Label Tid D C B)} (h₀ : ∀ q, ¬ R (init.pc u) q)
    (hjump : ∀ {m pc y p q}, T.jump (pc u) y = some p → R p q →
      y = x ∧ T.Run ⟨m, pc⟩ L ⟨m, Function.update pc u q⟩)
    (hfire : ∀ {tr m pc o d p q}, T.Run init tr ⟨m, pc⟩ → T.fire m u o (pc u) = some (d, p) →
      R p q → ∃ q₀, R (pc u) q₀ ∧ T.fire m u o q₀ = some (d, q))
    {tr : List (Label Tid D C B)} {c : Conf M Tid Pc} (h : T.Run init tr c) {q : Pc}
    (hq : R (c.pc u) q) :
    ∃ mid before, tr = mid ++ .chose u x :: before ∧ (∀ y, .chose u y ∉ mid) ∧
      T.Run init (mid ++ (L ++ before)) ⟨c.mem, Function.update c.pc u q⟩ := by
  revert q
  refine Run.rule T (I := fun tr m pc => ∀ {q}, R (pc u) q →
    ∃ mid before, tr = mid ++ .chose u x :: before ∧ (∀ y, .chose u y ∉ mid) ∧
      T.Run init (mid ++ (L ++ before)) ⟨m, Function.update pc u q⟩) ?_ ?_ ?_ ?_ h
  · intro q hq
    exact absurd hq (h₀ q)
  · intro tr m pc t o d p hr hi hf q hq
    by_cases htu : t = u
    · subst htu
      rw [Function.update_self] at hq
      obtain ⟨q₀, hq₀, hf'⟩ := hfire hr hf hq
      obtain ⟨mid, before, rfl, hmid, hrun⟩ := hi hq₀
      have hfire' : T.fire m t o (Function.update pc t q₀ t) = some (d, q) := by
        rwa [Function.update_self]
      have hs := T.step_run hfire'
      rw [Function.update_idem] at hs
      refine ⟨.did t d :: mid, before, rfl, by simpa using hmid, ?_⟩
      rw [Function.update_idem]
      exact .cons _ hrun hs
    · rw [Function.update_of_ne (Ne.symm htu)] at hq
      obtain ⟨mid, before, rfl, hmid, hrun⟩ := hi hq
      have hf' : T.fire m t o (Function.update pc u q t) = some (d, p) := by
        rwa [Function.update_of_ne htu]
      refine ⟨.did t d :: mid, before, rfl, by simpa using hmid, ?_⟩
      rw [Function.update_comm htu]
      exact .cons _ hrun (T.step_run hf')
  · intro tr m pc t y p hr hi hj q hq
    by_cases htu : t = u
    · subst htu
      rw [Function.update_self] at hq
      obtain ⟨rfl, hrun⟩ := hjump (m := m) hj hq
      refine ⟨[], tr, rfl, by simp, ?_⟩
      rw [Function.update_idem]
      exact hr.append hrun
    · rw [Function.update_of_ne (Ne.symm htu)] at hq
      obtain ⟨mid, before, rfl, hmid, hrun⟩ := hi hq
      have hj' : T.jump (Function.update pc u q t) y = some p := by
        rwa [Function.update_of_ne htu]
      refine ⟨.chose t y :: mid, before, rfl, ?_, ?_⟩
      · intro y' hy'
        rcases List.mem_cons.mp hy' with heq | hy'
        · cases heq
          exact htu rfl
        · exact hmid y' hy'
      · rw [Function.update_comm htu]
        exact .cons _ hrun (T.step_choose hj')
  · intro tr m pc a m' b hr hi ha q hq
    obtain ⟨mid, before, rfl, hmid, hrun⟩ := hi hq
    refine ⟨.ambient b :: mid, before, rfl, by simpa using hmid, ?_⟩
    exact .cons _ hrun (T.step_ambient ha)

end Threads
