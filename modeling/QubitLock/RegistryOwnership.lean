import QubitLock.Blocking.Program
import QubitLock.Monitor.History
import QubitLock.Tokio.Program

set_option relaxedAutoImplicit false
set_option autoImplicit false

/-!
# The registry belongs to the registration objects

Both monitors remove a registration unconditionally when its object is dropped, on every path out of
a suspension: a wakeup, a Timer that is ready between registration and release, a Timer error, a
panic, a cancellation. That is safe because identifiers are never reused. This file states what it
means for the registry and proves it for every run of both programs.

## Main definitions

* `RegistryOwnership` — the registry, as a function of the live registration objects.

## Main results

* `registry_ownership` — it holds in every run of a blocking monitor and of a Tokio monitor.
-/

namespace QubitLock

variable {σ ρ Choice Tid : Type} [DecidableEq Tid]

/-- The registry belongs to the live registration objects, where `reg t` is the registration of the
suspension that thread `t` is in, from its registration to its drop. -/
structure RegistryOwnership (tr : List (Program.Label σ ρ Choice Tid)) (m : Mem σ Tid)
    (reg : Tid → Option Registration) : Prop where
  /-- The keys are the identifiers of the live registration objects that no notification took. -/
  keys : ∀ i, i ∈ m.registry.entries.map Prod.fst ↔
    ∃ t g, liveReg tr t = some g ∧ g.waiterId = i ∧ g ∉ taken tr
  /-- Live registration objects have distinct identifiers. -/
  ids : ∀ t u g g', liveReg tr t = some g → liveReg tr u = some g' →
    g.waiterId = g'.waiterId → t = u ∧ g = g'
  /-- Registrations are distinct, and each one that was made was taken by one notification, was
  removed by its own drop, or is in the registry, and only one of these. -/
  once : (made tr).Nodup ∧ (taken tr ++ (dropped tr ++ m.registrations)).Perm (made tr)
  /-- The drop of a registration that was taken removes nothing. -/
  drop_taken : ∀ t g, liveReg tr t = some g → g ∈ taken tr →
    (m.registry.unregister g.waiterId).1 = none ∧
      (m.registry.unregister g.waiterId).2.entries = m.registry.entries
  /-- The drop of a registration removes no other entry. -/
  drop_other : ∀ t g, liveReg tr t = some g → ∀ e ∈ m.registry.entries, e.1 ≠ g.waiterId →
    e ∈ (m.registry.unregister g.waiterId).2.entries
  /-- The live registration objects are those of the suspensions. -/
  live : ∀ t, liveReg tr t = reg t
  /-- A thread that is in no suspension has no entry: its wait has returned, panicked or been
  cancelled, or it is reacquiring the lock. -/
  gone : ∀ t, reg t = none → ∀ g, .did t (.registered (some g)) ∈ tr → g ∉ m.registrations
  /-- Without a suspension the registry is empty. -/
  empty : (∀ t, reg t = none) → m.registry.entries = []

omit [DecidableEq Tid] in
/-- An entry of the registry is a registration. -/
lemma Mem.mem_registrations {m : Mem σ Tid} {g : Registration} :
    g ∈ m.registrations ↔ (g.waiterId, g.waiter) ∈ m.registry.entries := by
  simp only [Mem.registrations, List.mem_map]
  constructor
  · rintro ⟨e, he, rfl⟩
    exact he
  · exact fun he => ⟨_, he, rfl⟩

/-- The registry of a run belongs to the registration objects of its trace.

**Proof sketch.** The registrations in the registry are the live ones that no notification has taken
(`mem_registrations_iff`), and identifiers and threads determine each other. So a drop after a take
finds no entry, and a drop removes no entry of another thread. -/
lemma History.registryOwnership {tr : List (Program.Label σ ρ Choice Tid)} {m : Mem σ Tid}
    {R : Tid → Res} (h : History tr m R) (ho : Owned m R) :
    RegistryOwnership tr m fun t => (R t).reg where
  keys i := by
    constructor
    · intro hi
      obtain ⟨e, he, rfl⟩ := List.mem_map.mp hi
      have hmem : ⟨e.1, e.2⟩ ∈ m.registrations := Mem.mem_registrations.mpr he
      obtain ⟨⟨t, ht⟩, hnot⟩ := (h.mem_registrations_iff ho).mp hmem
      exact ⟨t, _, ht, rfl, hnot⟩
    · rintro ⟨t, g, ht, rfl, hnot⟩
      have hmem := (h.mem_registrations_iff ho).mpr ⟨⟨t, ht⟩, hnot⟩
      exact List.mem_map.mpr ⟨_, Mem.mem_registrations.mp hmem, rfl⟩
  ids t u g g' ht hu heq := by
    obtain rfl := ho.reg.id_inj ((h.live t).symm.trans ht) ((h.live u).symm.trans hu) heq
    rw [ht] at hu
    exact ⟨rfl, Option.some.inj hu⟩
  once := ⟨h.made_nodup, h.queue ▸ h.perm⟩
  drop_taken t g ht htaken := by
    have hnot : ∀ g' ∈ m.registrations, g'.waiterId ≠ g.waiterId := by
      intro g' hg' heq
      obtain ⟨u, hu⟩ := ho.reg.live hg'
      obtain rfl := ho.reg.id_inj hu ((h.live t).symm.trans ht) heq
      rw [h.live u, hu] at ht
      obtain rfl := Option.some.inj ht
      exact h.not_taken_of_mem hg' htaken
    have hnone : (m.registry.unregister g.waiterId).1 = none := by
      by_contra hsome
      obtain ⟨g', hg', heq⟩ := m.unregister_isSome.mp (Option.isSome_iff_ne_none.mpr hsome)
      exact hnot g' hg' heq
    refine ⟨hnone, ?_⟩
    rw [WaiterRegistry.entries_unregister, List.filter_eq_self]
    intro e he
    simpa using hnot ⟨e.1, e.2⟩ (Mem.mem_registrations.mpr he)
  drop_other t g _ e he hne := by
    rw [WaiterRegistry.entries_unregister, List.mem_filter]
    exact ⟨he, by simpa using hne⟩
  live := h.live
  gone t ht g hmade := h.not_mem_of_registered ho ht hmade
  empty hnone := by
    by_contra hne
    obtain ⟨e, he⟩ := List.exists_mem_of_ne_nil _ hne
    have hmem : ⟨e.1, e.2⟩ ∈ m.registrations := Mem.mem_registrations.mpr he
    obtain ⟨t, ht⟩ := ho.reg.live hmem
    have hnone : (R t).reg = none := hnone t
    rw [hnone] at ht
    cases ht

/-- **Registry ownership.** In every run of a blocking monitor, and in every run of a Tokio monitor
with futures dropped at any await, the registry belongs to the live registration objects.

**Proof sketch.** The registry is a function of the trace (`History`), and its entries belong to the
suspensions, which have distinct identifiers (`Owned`). The rest is about one trace and one memory
(`History.registryOwnership`). -/
theorem registry_ownership (maxInstant : ℕ) (s₀ : Setup σ) :
    (∀ (tr : List (Program.Label σ ρ (Blocking.Choice σ ρ) Tid))
        (c : Threads.Conf (Mem σ Tid) Tid (Blocking.Pc σ ρ)),
      (Blocking.program maxInstant).Run s₀ tr c →
        RegistryOwnership tr c.mem fun t => (Blocking.typ (c.pc t)).reg) ∧
    ∀ (tr : List (Program.Label σ ρ (Tokio.Choice σ ρ) Tid))
        (c : Threads.Conf (Mem σ Tid) Tid (Tokio.Pc σ ρ)),
      (Tokio.program maxInstant).Run s₀ tr c →
        RegistryOwnership tr c.mem fun t => (Tokio.typ (c.pc t)).reg := by
  constructor
  · intro tr c h
    exact ((Blocking.typed maxInstant Tid).history h).registryOwnership
      ((Blocking.typed maxInstant Tid).owned h)
  · intro tr c h
    exact ((Tokio.typed maxInstant Tid).history h).registryOwnership
      ((Tokio.typed maxInstant Tid).owned h)

/-- Two futures wait. A notification takes the first one, whose future is then dropped. -/
def takenThenDropped : List (Threads.Event (Fin 3) (Option TimeError) (Tokio.Choice ℕ Unit)
    (TimerEvent (Fin 3))) :=
  let wait : Tokio.Op ℕ Unit := .waitWhileAsync ⟨fun _ v => some (v == 0), fun v => (v, some ())⟩
  [.choose 0 (.call wait), .choose 0 .poll, .run 0 none, .run 0 none, .run 0 none, .run 0 none,
    .run 0 none, .choose 1 (.call wait), .choose 1 .poll, .run 1 none, .run 1 none, .run 1 none,
    .run 1 none, .run 1 none, .choose 2 (.call .notifyOne), .run 2 none, .choose 0 .cancel]

/-- In the run of `takenThenDropped` the first future still has its registration, which was taken; the
registry has the second one. -/
theorem registry_ownership_taken :
    ∃ tr, ∃ c : Threads.Conf (Mem ℕ (Fin 3)) (Fin 3) (Tokio.Pc ℕ Unit),
      (Tokio.program 100).Run ⟨0, 0, false⟩ tr c ∧ (Tokio.typ (c.pc 0)).reg = some ⟨1, 0⟩ ∧
      taken tr = [⟨1, 0⟩] ∧ c.mem.registrations = [⟨2, 1⟩] ∧
      RegistryOwnership tr c.mem fun t => (Tokio.typ (c.pc t)).reg := by
  obtain ⟨tr, c, hr, hp, -⟩ := (Tokio.program 100).threads.exists_run_of_play
    ((Tokio.program 100).start ⟨0, 0, false⟩) takenThenDropped
    (p := fun s => (Tokio.typ (s.1.pc 0)).reg = some ⟨1, 0⟩ ∧ taken s.2 = [⟨1, 0⟩] ∧
      s.1.mem.registrations = [⟨2, 1⟩]) (by decide)
  simp only [decide_eq_true_eq] at hp
  exact ⟨tr, c, hr, hp.1, hp.2.1, hp.2.2, (registry_ownership 100 ⟨0, 0, false⟩).2 tr c hr⟩

end QubitLock
