import Mathlib.Data.List.Basic
import QubitLock.Monitor.Resources

set_option relaxedAutoImplicit false
set_option autoImplicit false

/-!
# The memory agrees with the resources of the threads

In a run of a typed program the shared memory and the resources of the threads tell the same
story: the owner of the state lock is the thread that holds a guard, every entry of the registry
belongs to a live registration object, waiter objects are not shared, and a registered waiter is
always in reach of a signal. Each part is an invariant of single reports, proved without looking
at any program.

## Main definitions

* `LockOwned`, `FutureOwned`, `RegOwned`, `WaiterOwned` — agreement on the state lock, the Timer
  futures, the registrations and the waiter objects.
* `Sourced` — a registered waiter is in the registry, about to be signalled, or signalled.
* `Program.Typed.Fires` — what is known of a fired primitive in a run.

## Main results

* `Program.Typed.owned` — memory and resources agree in every run of a typed program.
* `Program.Typed.rule` — the invariant rule for runs of a typed program.
-/

namespace QubitLock

variable {σ ρ Pc Choice Tid : Type}

/-! ## The state lock -/

/-- The guard slots are the ones of the resources, and the owner of the state lock is the thread
whose slot is occupied. -/
structure LockOwned (m : Mem σ Tid) (R : Tid → Res) : Prop where
  slot : ∀ t, m.slot t = (R t).holds
  owner : ∀ t, m.owner = some t ↔ (R t).holds = true

/-- At most one thread holds the state lock. -/
lemma LockOwned.holds_inj {m : Mem σ Tid} {R : Tid → Res} (h : LockOwned m R) {t u : Tid}
    (ht : (R t).holds = true) (hu : (R u).holds = true) : t = u := by
  have h1 := (h.owner t).mpr ht
  have h2 := (h.owner u).mpr hu
  rw [h1] at h2
  exact Option.some.inj h2

/-- A memory with the same lock agrees with resources that hold the same slots. -/
lemma LockOwned.congr {m m' : Mem σ Tid} {R R' : Tid → Res} (h : LockOwned m R)
    (hs : m'.slot = m.slot) (ho : m'.owner = m.owner) (hR : ∀ t, (R' t).holds = (R t).holds) :
    LockOwned m' R' :=
  ⟨fun t => by rw [hs, hR, h.slot], fun t => by rw [ho, hR, h.owner]⟩

variable [DecidableEq Tid]

/-- The lock passes to a thread when it is free. -/
lemma LockOwned.acquire {m m' : Mem σ Tid} {R R' : Tid → Res} {t : Tid} (h : LockOwned m R)
    (hfree : m.owner = none) (hs : m'.slot = Function.update m.slot t true)
    (ho : m'.owner = some t) (ht : (R' t).holds = true) (hR : ∀ u ≠ t, R' u = R u) :
    LockOwned m' R' := by
  refine ⟨fun u => ?_, fun u => ?_⟩ <;> by_cases hu : u = t
  · subst hu
    rw [hs, Function.update_self, ht]
  · rw [hs, Function.update_of_ne hu, hR u hu, h.slot]
  · subst hu
    simp [ho, ht]
  · have hno : (R u).holds ≠ true := fun hh => by simpa [hfree] using (h.owner u).mpr hh
    simp [ho, hR u hu, hno, Ne.symm hu]

/-- The lock becomes free when the thread that holds it gives its guard up. -/
lemma LockOwned.release {m m' : Mem σ Tid} {R R' : Tid → Res} {t : Tid} (h : LockOwned m R)
    (hs : m'.slot = Function.update m.slot t false)
    (ho : m'.owner = if m.slot t then none else m.owner) (ht : (R' t).holds = false)
    (hR : ∀ u ≠ t, R' u = R u) : LockOwned m' R' := by
  refine ⟨fun u => ?_, fun u => ?_⟩ <;> by_cases hu : u = t
  · subst hu
    rw [hs, Function.update_self, ht]
  · rw [hs, Function.update_of_ne hu, hR u hu, h.slot]
  · subst hu
    rw [ho, ht, h.slot]
    by_cases hh : (R u).holds = true
    · simp [hh]
    · simp [hh, h.owner]
  · rw [ho, hR u hu, h.slot]
    by_cases hh : (R t).holds = true
    · have hno : (R u).holds ≠ true := fun hu' => hu (h.holds_inj hu' hh)
      simp [hh, hno]
    · simp [hh, h.owner]

/-- A report keeps the agreement on the state lock. -/
lemma LockOwned.did {m : Mem σ Tid} {R : Tid → Res} {t : Tid} {d : Did σ ρ} {r' : Res}
    (h : LockOwned m R) (ha : m.Allows t d) (hs : (R t).Step d r') :
    LockOwned (m.effect t d) (Function.update R t r') := by
  have hne : ∀ u ≠ t, Function.update R t r' u = R u := fun u hu => Function.update_of_ne hu _ _
  have hr' : ((Function.update R t r') t).holds = ((R t).after d).holds := by
    rw [Function.update_self, hs.2.holds]
  cases d with
  | locked => exact h.acquire ha rfl rfl hr' hne
  | unlocked =>
    refine h.release rfl ?_ hr' hne
    rw [if_pos (show m.slot t = true from ha)]
    rfl
  | returned | unwound => exact h.release rfl rfl hr' hne
  | guardReturned =>
    have hh : (R t).holds = true := hs.1.1
    refine h.congr rfl rfl fun u => ?_
    by_cases hu : u = t
    · subst hu
      rw [hr', hh]
      rfl
    · rw [hne u hu]
  | _ =>
    refine h.congr (m.effect_slot t _) (m.effect_owner t _) fun u => ?_
    by_cases hu : u = t
    · subst hu
      rw [hr', Res.after_holds]
    · rw [hne u hu]

/-- The Timer does not touch the state lock. -/
lemma LockOwned.timer {m m' : Mem σ Tid} {R : Tid → Res} {e : TimerEvent Tid} {b : TimerDid Tid}
    (h : LockOwned m R) (he : m.timer e = some (m', b)) : LockOwned m' R :=
  h.congr (Mem.timer_frame he).slot (Mem.timer_frame he).owner fun _ => rfl

/-! ## The Timer futures -/

/-- A thread has a Timer future if its resources say so. -/
def FutureOwned (m : Mem σ Tid) (R : Tid → Res) : Prop :=
  ∀ t, (R t).timer = true → (m.future t).isSome = true

/-- A report keeps the agreement on Timer futures. -/
lemma FutureOwned.did {m : Mem σ Tid} {R : Tid → Res} {t : Tid} {d : Did σ ρ} {r' : Res}
    (h : FutureOwned m R) (hs : (R t).Step d r') :
    FutureOwned (m.effect t d) (Function.update R t r') := by
  intro u hu'
  by_cases hu : u = t
  · subst hu
    rw [Function.update_self] at hu'
    have ht := hs.2.timer hu'
    rw [Res.after_timer] at ht
    rw [m.effect_future]
    cases d with
    | timerMade d r =>
      cases r with
      | error e => exact h u ht
      | ok _ => simp
    | polled w r => simpa using h u ht
    | returned | guardReturned | unwound => cases ht
    | _ => exact h u ht
  · rw [Function.update_of_ne hu] at hu'
    rw [m.effect_future]
    cases d with
    | timerMade d r => cases r <;> simpa [hu] using h u hu'
    | polled w r => simpa [hu] using h u hu'
    | returned | guardReturned | unwound => simpa [hu] using h u hu'
    | _ => exact h u hu'

/-- The Timer keeps the agreement on Timer futures. -/
lemma FutureOwned.timer {m m' : Mem σ Tid} {R : Tid → Res} {e : TimerEvent Tid}
    {b : TimerDid Tid} (h : FutureOwned m R) (he : m.timer e = some (m', b)) :
    FutureOwned m' R := by
  rcases Mem.timer_eq_some he with ⟨d, rfl, -⟩ | ⟨t, f, r, hf, -, rfl, -⟩ | ⟨a, -, rfl, -⟩ |
    ⟨a, -, rfl, -⟩
  · exact h
  · intro u hu'
    by_cases hu : u = t
    · subst hu
      simp [Mem.complete]
    · simpa [Mem.complete, hu] using h u hu'
  · exact h
  · exact h

/-! ## Registrations -/

/-- The registry is well formed, the registrations owned by threads have distinct identifiers
below the next one, and every registry entry is owned by a thread. -/
structure RegOwned (m : Mem σ Tid) (R : Tid → Res) : Prop where
  wellFormed : m.registry.WellFormed
  id_lt : ∀ {t g}, (R t).reg = some g → g.waiterId < m.registry.nextWaiterId
  id_inj : ∀ {t u g g'}, (R t).reg = some g → (R u).reg = some g' → g.waiterId = g'.waiterId →
    t = u
  live : ∀ {g}, g ∈ m.registrations → ∃ t, (R t).reg = some g

omit [DecidableEq Tid] in
/-- Agreement on registrations when a thread keeps its registration and the registry shrinks. -/
lemma RegOwned.shrink {m m' : Mem σ Tid} {R R' : Tid → Res} (h : RegOwned m R)
    (hwf : m'.registry.WellFormed) (hn : m'.registry.nextWaiterId = m.registry.nextWaiterId)
    (hsub : ∀ g ∈ m'.registrations, g ∈ m.registrations)
    (hR : ∀ t, (R' t).reg = (R t).reg) : RegOwned m' R' where
  wellFormed := hwf
  id_lt hg := by
    rw [hR] at hg
    rw [hn]
    exact h.id_lt hg
  id_inj hg hg' := by
    rw [hR] at hg hg'
    exact h.id_inj hg hg'
  live hg := by
    obtain ⟨t, ht⟩ := h.live (hsub _ hg)
    exact ⟨t, by rw [hR, ht]⟩

/-- Agreement on registrations after a new one: its identifier is above all the others.

**Proof sketch.** The new identifier is the counter of the registry, and all live ones are below it. So
it collides with none, and the entry is the last one of the registry. -/
lemma RegOwned.register {m m' : Mem σ Tid} {R R' : Tid → Res} {t : Tid} {g : Registration}
    (h : RegOwned m R) (hwf : m'.registry.WellFormed)
    (hlt : ∀ {i}, i < m.registry.nextWaiterId → i < m'.registry.nextWaiterId)
    (hg : g.waiterId = m.registry.nextWaiterId)
    (hg' : g.waiterId < m'.registry.nextWaiterId)
    (hm : m'.registrations = m.registrations ++ [g]) (hnone : (R t).reg = none)
    (ht : (R' t).reg = some g) (hR : ∀ u ≠ t, R' u = R u) : RegOwned m' R' where
  wellFormed := hwf
  id_lt {u g₁} h₁ := by
    by_cases hu : u = t
    · subst hu
      rw [ht] at h₁
      cases h₁
      exact hg'
    · rw [hR u hu] at h₁
      exact hlt (h.id_lt h₁)
  id_inj {u v g₁ g₂} h₁ h₂ heq := by
    by_cases hu : u = t <;> by_cases hv : v = t
    · rw [hu, hv]
    · rw [hu, ht] at h₁
      rw [hR v hv] at h₂
      cases h₁
      exact absurd (h.id_lt h₂) (by omega)
    · rw [hv, ht] at h₂
      rw [hR u hu] at h₁
      cases h₂
      exact absurd (h.id_lt h₁) (by omega)
    · rw [hR u hu] at h₁
      rw [hR v hv] at h₂
      exact h.id_inj h₁ h₂ heq
  live {g₁} h₁ := by
    rw [hm, List.mem_append, List.mem_singleton] at h₁
    rcases h₁ with h₁ | rfl
    · obtain ⟨u, hu⟩ := h.live h₁
      have hut : u ≠ t := by
        rintro rfl
        rw [hnone] at hu
        cases hu
      exact ⟨u, by rw [hR u hut, hu]⟩
    · exact ⟨t, ht⟩

omit [DecidableEq Tid] in
/-- Agreement on registrations after a thread drops its own. -/
lemma RegOwned.unregister {m m' : Mem σ Tid} {R R' : Tid → Res} {t : Tid} {g : Registration}
    (h : RegOwned m R) (hwf : m'.registry.WellFormed)
    (hn : m'.registry.nextWaiterId = m.registry.nextWaiterId)
    (hm : m'.registrations = m.registrations.filter fun g' => g'.waiterId ≠ g.waiterId)
    (hg : (R t).reg = some g) (ht : (R' t).reg = none) (hR : ∀ u ≠ t, R' u = R u) :
    RegOwned m' R' where
  wellFormed := hwf
  id_lt {u g₁} h₁ := by
    have hu : u ≠ t := by
      rintro rfl
      rw [ht] at h₁
      cases h₁
    rw [hR u hu] at h₁
    rw [hn]
    exact h.id_lt h₁
  id_inj {u v g₁ g₂} h₁ h₂ heq := by
    have hu : u ≠ t := by
      rintro rfl
      rw [ht] at h₁
      cases h₁
    have hv : v ≠ t := by
      rintro rfl
      rw [ht] at h₂
      cases h₂
    rw [hR u hu] at h₁
    rw [hR v hv] at h₂
    exact h.id_inj h₁ h₂ heq
  live {g₁} h₁ := by
    rw [hm, List.mem_filter] at h₁
    obtain ⟨u, hu⟩ := h.live h₁.1
    have hut : u ≠ t := by
      rintro rfl
      rw [hg] at hu
      cases hu
      simp at h₁
    exact ⟨u, by rw [hR u hut, hu]⟩

/-- The resources of a thread other than `t` do not change in a step of `t`. -/
lemma update_reg_eq {R : Tid → Res} {t : Tid} {r' : Res} (h : r'.reg = (R t).reg) (u : Tid) :
    (Function.update R t r' u).reg = (R u).reg := by
  by_cases hu : u = t
  · subst hu
    rw [Function.update_self, h]
  · rw [Function.update_of_ne hu]

omit [DecidableEq Tid] in
/-- A new registration has the next identifier. -/
lemma RegOwned.registered_id {m : Mem σ Tid} {R : Tid → Res} {t : Tid} {g : Registration}
    (h : RegOwned m R) (ha : m.Allows t (.registered (some g) : Did σ ρ)) :
    g.waiterId = m.registry.nextWaiterId := by
  by_cases hlt : m.registry.nextWaiterId + 1 < 2 ^ 64
  · have hok := ha.1
    rw [WaiterRegistry.register_of_lt h.wellFormed _ hlt] at hok
    exact (Except.ok.inj hok).symm
  · have hok := ha.1
    rw [WaiterRegistry.register_of_not_lt _ hlt] at hok
    cases hok

/-- A report keeps the agreement on registrations.

**Proof sketch.** By the report. A registration appends an entry with the next identifier, a drop and a
take remove entries, and all others leave the registry and the registrations of the threads alone. -/
lemma RegOwned.did {m : Mem σ Tid} {R : Tid → Res} {t : Tid} {d : Did σ ρ} {r' : Res}
    (h : RegOwned m R) (ha : m.Allows t d) (hs : (R t).Step d r') :
    RegOwned (m.effect t d) (Function.update R t r') := by
  have hne : ∀ u ≠ t, Function.update R t r' u = R u := fun u hu => Function.update_of_ne hu _ _
  have hr' : r'.reg = ((R t).after d).reg := hs.2.reg
  have hself : (Function.update R t r' t).reg = r'.reg := by rw [Function.update_self]
  cases d with
  | registered g =>
    cases g with
    | none =>
      obtain ⟨msg, hmsg⟩ := ha
      have hreg : (m.effect t (.registered none : Did σ ρ)).registry = m.registry :=
        Mem.register_error_snd h.wellFormed hmsg
      refine h.shrink (hreg ▸ h.wellFormed) (by rw [hreg]) ?_ (update_reg_eq hr')
      intro g hg
      simpa only [Mem.registrations, hreg] using hg
    | some g =>
      have hid : g.waiterId = m.registry.nextWaiterId := h.registered_id ha
      obtain ⟨hok, hw⟩ := ha
      have hlt : m.registry.nextWaiterId + 1 < 2 ^ 64 := by
        by_contra hlt
        rw [WaiterRegistry.register_of_not_lt _ hlt] at hok
        cases hok
      have hreg : (m.effect t (.registered (some g) : Did σ ρ)).registry.nextWaiterId =
          m.registry.nextWaiterId + 1 := by
        show (m.registry.register m.nextWaiter).2.nextWaiterId = _
        rw [WaiterRegistry.register_of_lt h.wellFormed _ hlt]
      refine h.register (h.wellFormed.register _) ?_ hid (by rw [hreg]; omega)
        (m.registrations_register t h.wellFormed hok hw) hs.1.2 (hself.trans hr') hne
      intro i hi
      rw [hreg]
      omega
  | unregistered i b =>
    obtain ⟨g, hg, rfl⟩ := hs.1
    exact h.unregister (h.wellFormed.unregister _) rfl
      (m.effect_registrations t _ (by simp)) hg (hself.trans hr') hne
  | tookOne e =>
    refine h.shrink h.wellFormed.takeOne rfl ?_ (update_reg_eq hr')
    intro g hg
    rw [m.effect_registrations t _ (by simp)] at hg
    exact List.mem_of_mem_tail hg
  | tookAll es =>
    refine h.shrink h.wellFormed.takeAll rfl ?_ (update_reg_eq hr')
    intro g hg
    rw [m.effect_registrations t _ (by simp)] at hg
    simp [Did.left] at hg
  | returned | unwound =>
    exact h.shrink h.wellFormed rfl (fun g hg => hg) (update_reg_eq (hr'.trans hs.1.1.symm))
  | guardReturned =>
    exact h.shrink h.wellFormed rfl (fun g hg => hg) (update_reg_eq (hr'.trans hs.1.2.1.symm))
  | _ =>
    refine h.shrink ?_ ?_ ?_ (update_reg_eq (hr'.trans (Res.after_reg _ _)))
    · rw [m.effect_registry]
      exact h.wellFormed
    · rw [m.effect_registry]
    · intro g hg
      rwa [m.effect_registrations t _ (by simp)] at hg

/-- A registration object that already exists does not enter the registry again. -/
lemma RegOwned.mem_of_mem_effect {m : Mem σ Tid} {R : Tid → Res} {t u : Tid} {d : Did σ ρ}
    {g : Registration} (h : RegOwned m R) (ha : m.Allows t d) (hu : (R u).reg = some g)
    (hg : g ∈ (m.effect t d).registrations) : g ∈ m.registrations := by
  rw [Mem.registrations_effect h.wellFormed ha, List.mem_append] at hg
  rcases hg with hg | hg
  · exact (d.left_sublist _).subset hg
  · cases d with
    | registered g' =>
      obtain rfl : g' = some g := by simpa [Did.entered] using hg
      exact absurd (h.registered_id ha) (h.id_lt hu).ne
    | _ => simp [Did.entered] at hg

/-- The Timer does not touch the registrations. -/
lemma RegOwned.timer {m m' : Mem σ Tid} {R : Tid → Res} {e : TimerEvent Tid} {b : TimerDid Tid}
    (h : RegOwned m R) (he : m.timer e = some (m', b)) : RegOwned m' R := by
  have hreg := (Mem.timer_frame he).registry
  refine h.shrink (hreg ▸ h.wellFormed) (by rw [hreg]) ?_ fun _ => rfl
  intro g hg
  simpa only [Mem.registrations, hreg] using hg

/-! ## Waiter objects -/

/-- Waiter objects: a registration owns its waiter, no two threads share one, and nothing in the
memory mentions a waiter that has not been allocated. -/
structure WaiterOwned (m : Mem σ Tid) (R : Tid → Res) : Prop where
  waiter_of_reg : ∀ {t g}, (R t).reg = some g → (R t).waiter = some g.waiter
  waiter_inj : ∀ {t u a}, (R t).waiter = some a → (R u).waiter = some a → t = u
  waiter_lt : ∀ {t a}, (R t).waiter = some a → a < m.nextWaiter
  sig_lt : ∀ {t a}, a ∈ (R t).sig → a < m.nextWaiter
  signalled_lt : ∀ {a}, m.signalled a = true → a < m.nextWaiter
  handed_lt : ∀ {a}, a ∈ m.handed → a < m.nextWaiter
  waker_lt : ∀ {t f a}, m.future t = some f → f.waker = some (.waiter a) → a < m.nextWaiter
  inFlight_lt : ∀ {a}, a ∈ m.inFlight → a < m.nextWaiter

omit [DecidableEq Tid] in
/-- A waiter in the registry has been allocated. -/
lemma WaiterOwned.registration_lt {m : Mem σ Tid} {R : Tid → Res} (h : WaiterOwned m R)
    (hr : RegOwned m R) {g : Registration} (hg : g ∈ m.registrations) :
    g.waiter < m.nextWaiter := by
  obtain ⟨t, ht⟩ := hr.live hg
  exact h.waiter_lt (h.waiter_of_reg ht)

omit [DecidableEq Tid] in
/-- Agreement on waiter objects when no thread gets a new one. -/
lemma WaiterOwned.keep {m m' : Mem σ Tid} {R R' : Tid → Res} (h : WaiterOwned m R)
    (hn : m.nextWaiter ≤ m'.nextWaiter)
    (hw : ∀ u a, (R' u).waiter = some a → (R u).waiter = some a)
    (hreg : ∀ u g, (R' u).reg = some g → (R u).reg = some g ∧ (R' u).waiter = (R u).waiter)
    (hsig : ∀ u, ∀ a ∈ (R' u).sig, a < m.nextWaiter)
    (hlatch : ∀ a, m'.signalled a = true → a < m.nextWaiter)
    (hhanded : ∀ a ∈ m'.handed, a < m.nextWaiter)
    (hwaker : ∀ u f a, m'.future u = some f → f.waker = some (.waiter a) → a < m.nextWaiter)
    (hfly : ∀ a ∈ m'.inFlight, a < m.nextWaiter) : WaiterOwned m' R' where
  waiter_of_reg {u g} hg := by
    obtain ⟨h1, h2⟩ := hreg u g hg
    rw [h2]
    exact h.waiter_of_reg h1
  waiter_inj {u v a} hu hv := h.waiter_inj (hw u a hu) (hw v a hv)
  waiter_lt {u a} hu := (h.waiter_lt (hw u a hu)).trans_le hn
  sig_lt {u a} ha := (hsig u a ha).trans_le hn
  signalled_lt {a} ha := (hlatch a ha).trans_le hn
  handed_lt {a} ha := (hhanded a ha).trans_le hn
  waker_lt {u f a} hf ha := (hwaker u f a hf ha).trans_le hn
  inFlight_lt {a} ha := (hfly a ha).trans_le hn

/-- Agreement on waiter objects after a registration: the new waiter is fresh.

**Proof sketch.** Every waiter object that anybody knows of is below the counter, and the new one is the
counter. So nobody else has it, and no latch, signal or waker speaks of it yet. -/
lemma WaiterOwned.register {m m' : Mem σ Tid} {R R' : Tid → Res} {t : Tid} {g : Registration}
    (h : WaiterOwned m R) (hn : m'.nextWaiter = m.nextWaiter + 1)
    (hg : g.waiter = m.nextWaiter) (hreg : (R' t).reg = some g)
    (hw : (R' t).waiter = some g.waiter) (hs : (R' t).sig = (R t).sig)
    (hR : ∀ u ≠ t, R' u = R u) (hlatch : m'.signalled = m.signalled)
    (hhanded : m'.handed = m.handed) (hfut : m'.future = m.future)
    (hfly : m'.inFlight = m.inFlight) : WaiterOwned m' R' where
  waiter_of_reg {u g'} hg' := by
    by_cases hu : u = t
    · subst hu
      rw [hreg] at hg'
      cases hg'
      exact hw
    · rw [hR u hu] at hg' ⊢
      exact h.waiter_of_reg hg'
  waiter_inj {u v a} hu' hv' := by
    by_cases hu : u = t <;> by_cases hv : v = t
    · rw [hu, hv]
    · rw [hu, hw, hg] at hu'
      rw [hR v hv] at hv'
      have := h.waiter_lt hv'
      simp only [Option.some.injEq] at hu'
      omega
    · rw [hv, hw, hg] at hv'
      rw [hR u hu] at hu'
      have := h.waiter_lt hu'
      simp only [Option.some.injEq] at hv'
      omega
    · rw [hR u hu] at hu'
      rw [hR v hv] at hv'
      exact h.waiter_inj hu' hv'
  waiter_lt {u a} hu' := by
    by_cases hu : u = t
    · rw [hu, hw, hg] at hu'
      simp only [Option.some.injEq] at hu'
      omega
    · rw [hR u hu] at hu'
      have := h.waiter_lt hu'
      omega
  sig_lt {u a} ha := by
    have : a ∈ (R u).sig := by
      by_cases hu : u = t
      · rw [hu, ← hs, ← hu]
        exact ha
      · rwa [hR u hu] at ha
    have := h.sig_lt this
    omega
  signalled_lt {a} ha := by
    have := h.signalled_lt (hlatch ▸ ha)
    omega
  handed_lt {a} ha := by
    have := h.handed_lt (hhanded ▸ ha)
    omega
  waker_lt {u f a} hf ha := by
    have := h.waker_lt (hfut ▸ hf) ha
    omega
  inFlight_lt {a} ha := by
    have := h.inFlight_lt (hfly ▸ ha)
    omega

/-- A waker stored after a report was stored before it, or it is the one of the poll. -/
lemma waker_of_effect {m : Mem σ Tid} {t u : Tid} {d : Did σ ρ} {f : TimerFuture} {a : ℕ}
    (hf : (m.effect t d).future u = some f) (ha : f.waker = some (.waiter a)) :
    (∃ f', m.future u = some f' ∧ f'.waker = some (.waiter a)) ∨
      ∃ r, d = .polled (.waiter a) r := by
  rw [m.effect_future] at hf
  by_cases hu : u = t
  · subst hu
    cases d with
    | timerMade d r =>
      cases r with
      | error e => exact .inl ⟨f, hf, ha⟩
      | ok _ =>
        obtain rfl : TimerFuture.at_ d = f := by simpa using hf
        simp [TimerFuture.at_] at ha
    | polled w r =>
      simp only [Function.update_self, Option.map_eq_some_iff] at hf
      obtain ⟨f', hf', rfl⟩ := hf
      unfold TimerFuture.polled at ha
      split at ha
      · simp only [Option.some.injEq] at ha
        exact .inr ⟨r, by rw [ha]⟩
      · exact .inl ⟨f', hf', ha⟩
    | returned | guardReturned | unwound => simp at hf
    | _ => exact .inl ⟨f, hf, ha⟩
  · cases d with
    | timerMade d r =>
      cases r with
      | error e => exact .inl ⟨f, hf, ha⟩
      | ok _ => exact .inl ⟨f, by simpa [hu] using hf, ha⟩
    | polled w r => exact .inl ⟨f, by simpa [hu] using hf, ha⟩
    | returned | guardReturned | unwound => exact .inl ⟨f, by simpa [hu] using hf, ha⟩
    | _ => exact .inl ⟨f, hf, ha⟩

/-- A report keeps the agreement on waiter objects.

**Proof sketch.** A registration brings a fresh waiter object. Every other report uses only waiter
objects that exist: a poll hands out the own one of its thread, and a notification owes signals to the
waiters of registrations. -/
lemma WaiterOwned.did {m : Mem σ Tid} {R : Tid → Res} {t : Tid} {d : Did σ ρ} {r' : Res}
    (h : WaiterOwned m R) (hr : RegOwned m R) (ha : m.Allows t d) (hs : (R t).Step d r') :
    WaiterOwned (m.effect t d) (Function.update R t r') := by
  have hne : ∀ u ≠ t, Function.update R t r' u = R u := fun u hu => Function.update_of_ne hu _ _
  have hself : Function.update R t r' t = r' := Function.update_self _ _ _
  by_cases hd : ∃ g, d = .registered (some g)
  · obtain ⟨g, rfl⟩ := hd
    have hreg : r'.reg = some g := hs.2.reg
    refine h.register rfl ha.2 ?_ ?_ ?_ hne rfl rfl rfl rfl <;> rw [hself]
    · exact hreg
    · exact hs.2.waiter_of_reg g hreg
    · exact hs.2.sig
  have hpoll : ∀ a r, d = .polled (.waiter a) r → a < m.nextWaiter := by
    rintro a r rfl
    exact h.waiter_lt (hs.1.2 a rfl)
  refine h.keep ?_ ?_ ?_ ?_ ?_ ?_ ?_ ?_
  · rw [m.effect_nextWaiter]
    split <;> omega
  · intro u a hu
    by_cases hut : u = t
    · subst hut
      rw [hself] at hu
      have hw := hs.2.waiter a hu
      rw [Res.after_waiter] at hw
      split at hw
      · rename_i g
        exact absurd ⟨g, rfl⟩ hd
      all_goals first | exact hw | cases hw
    · rwa [hne u hut] at hu
  · intro u g hu
    by_cases hut : u = t
    · subst hut
      rw [hself] at hu ⊢
      have hreg := hs.2.reg
      have hwaiter := hs.2.waiter_of_reg g hu
      rw [hu, Res.after_reg] at hreg
      rw [hwaiter, Res.after_waiter]
      cases d with
      | registered g' =>
        cases g' with
        | none => exact ⟨hreg.symm, rfl⟩
        | some g' => exact absurd ⟨g', rfl⟩ hd
      | unregistered | returned | guardReturned | unwound => cases hreg
      | _ => exact ⟨hreg.symm, rfl⟩
    · rw [hne u hut] at hu ⊢
      exact ⟨hu, rfl⟩
  · intro u a hu
    by_cases hut : u = t
    · subst hut
      rw [hself, hs.2.sig, Res.after_sig] at hu
      cases d with
      | tookOne e =>
        obtain rfl : e = m.registrations.head? := ha
        simp only [List.mem_map, Option.mem_toList] at hu
        obtain ⟨g, hg, rfl⟩ := hu
        exact h.registration_lt hr (List.mem_of_mem_head? hg)
      | tookAll es =>
        obtain rfl : es = m.registrations := ha
        simp only [List.mem_map] at hu
        obtain ⟨g, hg, rfl⟩ := hu
        exact h.registration_lt hr hg
      | signalled => exact h.sig_lt (List.mem_of_mem_tail hu)
      | returned | guardReturned | unwound => simp at hu
      | _ => exact h.sig_lt hu
    · rw [hne u hut] at hu
      exact h.sig_lt hu
  · intro a hl
    rw [m.effect_signalled] at hl
    cases d with
    | signalled b =>
      by_cases hab : a = b
      · subst hab
        exact h.sig_lt (List.mem_of_mem_head? hs.1)
      · exact h.signalled_lt (by simpa [hab] using hl)
    | _ => exact h.signalled_lt hl
  · intro a hl
    rw [m.effect_handed] at hl
    split at hl
    · rcases List.mem_cons.mp hl with rfl | hl
      · exact hpoll _ _ rfl
      · exact h.handed_lt hl
    · exact h.handed_lt hl
  · intro u f a hf hfa
    rcases waker_of_effect hf hfa with ⟨f', hf', hfa'⟩ | ⟨r, hr⟩
    · exact h.waker_lt hf' hfa'
    · exact hpoll a r hr
  · intro a hl
    rw [m.effect_inFlight] at hl
    exact h.inFlight_lt hl

/-- The Timer keeps the agreement on waiter objects.

**Proof sketch.** A wake moves a waker from those in flight to the latches, and a completion moves the
stored one to those in flight; both were known before. -/
lemma WaiterOwned.timer {m m' : Mem σ Tid} {R : Tid → Res} {e : TimerEvent Tid}
    {b : TimerDid Tid} (h : WaiterOwned m R) (he : m.timer e = some (m', b)) :
    WaiterOwned m' R := by
  have hfr := Mem.timer_frame he
  refine h.keep hfr.nextWaiter.ge (fun _ _ hu => hu) (fun _ _ hg => ⟨hg, rfl⟩)
    (fun _ _ ha => h.sig_lt ha) ?_ (fun a ha => h.handed_lt (hfr.handed ▸ ha)) ?_ ?_
  all_goals rcases Mem.timer_eq_some he with ⟨d, rfl, -⟩ | ⟨t, f, r, hf, -, rfl, -⟩ |
    ⟨a, ha, rfl, -⟩ | ⟨a, ha, rfl, -⟩
  · exact fun x hx => h.signalled_lt hx
  · exact fun x hx => h.signalled_lt hx
  · intro x hx
    by_cases hxa : x = a
    · exact hxa ▸ h.inFlight_lt ha
    · exact h.signalled_lt (by simpa [hxa] using hx)
  · intro x hx
    by_cases hxa : x = a
    · exact hxa ▸ h.handed_lt ha
    · exact h.signalled_lt (by simpa [hxa] using hx)
  · exact fun u f x hf hx => h.waker_lt hf hx
  · intro u f' x hf' hx
    by_cases hu : u = t
    · obtain rfl : f.complete r = f' := by simpa [Mem.complete, hu] using hf'
      simp [TimerFuture.complete] at hx
    · exact h.waker_lt (by simpa [Mem.complete, hu] using hf') hx
  · exact fun u f x hf hx => h.waker_lt hf hx
  · exact fun u f x hf hx => h.waker_lt hf hx
  · exact fun x hx => h.inFlight_lt hx
  · intro x hx
    simp only [Mem.complete] at hx
    split at hx
    · rename_i w hw
      rcases List.mem_cons.mp hx with rfl | hx
      · exact h.waker_lt hf hw
      · exact h.inFlight_lt hx
    · exact h.inFlight_lt hx
  · exact fun x hx => h.inFlight_lt (List.mem_of_mem_erase hx)
  · exact fun x hx => h.inFlight_lt hx

/-! ## Wake sources -/

/-- No registered waiter is out of reach: it is in the registry, or a notification that took it
is still to signal it, or its latch is set. -/
def Sourced (m : Mem σ Tid) (R : Tid → Res) : Prop :=
  ∀ t g, (R t).reg = some g →
    g ∈ m.registrations ∨ (∃ u, g.waiter ∈ (R u).sig) ∨ m.signalled g.waiter = true

/-- A registration that a report keeps stays in the registry, or a notification has taken it and owes
its signal. -/
lemma RegOwned.mem_or_owed {m : Mem σ Tid} {R : Tid → Res} {t u : Tid} {d : Did σ ρ} {r' : Res}
    {g : Registration} (hr : RegOwned m R) (ha : m.Allows t d) (hs : (R t).Step d r')
    (hold : (R u).reg = some g) (hu : (Function.update R t r' u).reg = some g)
    (hin : g ∈ m.registrations) :
    g ∈ (m.effect t d).registrations ∨ g.waiter ∈ (Function.update R t r' t).sig := by
  rw [Mem.registrations_effect hr.wellFormed ha, Function.update_self]
  cases d with
  | unregistered i b =>
    obtain ⟨g', hg', rfl⟩ := hs.1
    refine .inl (List.mem_append_left _ (List.mem_filter.mpr ⟨hin, ?_⟩))
    simp only [ne_eq, decide_eq_true_eq]
    intro heq
    obtain rfl := hr.id_inj hold hg' heq
    rw [Function.update_self, hs.2.reg, Res.after_reg] at hu
    cases hu
  | tookOne e =>
    obtain rfl : e = m.registrations.head? := ha
    have hsig : r'.sig = m.registrations.head?.toList.map Registration.waiter := by
      rw [hs.2.sig, Res.after_sig]
    cases hl : m.registrations with
    | nil => simp [hl] at hin
    | cons g₀ gs =>
      rw [hl] at hin
      rcases List.mem_cons.mp hin with rfl | hin
      · refine .inr ?_
        rw [hsig, hl]
        simp
      · exact .inl (List.mem_append_left _ hin)
  | tookAll es =>
    obtain rfl : es = m.registrations := ha
    refine .inr ?_
    rw [hs.2.sig, Res.after_sig]
    exact List.mem_map_of_mem hin
  | _ => exact .inl (List.mem_append_left _ hin)

/-- A signal that a notification owes stays owed until it is given. -/
lemma Res.Step.sig_or_signalled {m : Mem σ Tid} {R : Tid → Res} {t v : Tid} {d : Did σ ρ} {r' : Res}
    {a : ℕ} (hs : (R t).Step d r') (hv : a ∈ (R v).sig) :
    a ∈ (Function.update R t r' v).sig ∨ (m.effect t d).signalled a = true := by
  by_cases hvt : v = t
  · subst hvt
    have hsig : r'.sig = ((R v).after d).sig := hs.2.sig
    rw [Res.after_sig] at hsig
    rw [Function.update_self, hsig]
    cases d with
    | signalled b =>
      have hhead : (R v).sig.head? = some b := hs.1
      by_cases hab : a = b
      · refine .inr ?_
        rw [m.effect_signalled, hab]
        exact Function.update_self _ _ _
      · refine .inl ?_
        cases hl : (R v).sig with
        | nil => simp [hl] at hv
        | cons b' bs =>
          rw [hl] at hv hhead
          rcases List.mem_cons.mp hv with rfl | hv
          · exact absurd (by simpa using hhead) hab
          · exact hv
    | tookOne e | tookAll e =>
      have hnil : (R v).sig = [] := hs.1.2.2
      simp [hnil] at hv
    | returned | unwound =>
      have hnil : (R v).sig = [] := hs.1.2
      simp [hnil] at hv
    | guardReturned =>
      have hnil : (R v).sig = [] := hs.1.2.2
      simp [hnil] at hv
    | _ => exact .inl hv
  · rw [Function.update_of_ne hvt]
    exact .inl hv

/-- A report keeps every registered waiter in reach.

**Proof sketch.** A notification moves the waiters it takes to the signals it owes, a signal sets
the latch it removes from them, and dropping a registration removes no other one since
identifiers are distinct. -/
lemma Sourced.did {m : Mem σ Tid} {R : Tid → Res} {t : Tid} {d : Did σ ρ} {r' : Res}
    (h : Sourced m R) (hr : RegOwned m R) (ha : m.Allows t d) (hs : (R t).Step d r') :
    Sourced (m.effect t d) (Function.update R t r') := by
  intro u g hu
  by_cases hd : d = .registered (some g)
  · subst hd
    refine .inl ?_
    rw [m.registrations_register t hr.wellFormed ha.1 ha.2]
    exact List.mem_append_right _ (List.mem_singleton_self g)
  -- the registration is an old one
  have hold : (R u).reg = some g := by
    by_cases hut : u = t
    · subst hut
      rw [Function.update_self, hs.2.reg, Res.after_reg] at hu
      split at hu
      · cases hu
        exact absurd rfl hd
      all_goals first | exact hu | cases hu
    · rwa [Function.update_of_ne hut] at hu
  rcases h u g hold with hin | ⟨v, hv⟩ | hlatch
  · rcases hr.mem_or_owed ha hs hold hu hin with hin | howed
    · exact .inl hin
    · exact .inr (.inl ⟨t, howed⟩)
  · rcases hs.sig_or_signalled (m := m) hv with hv | hlatch
    · exact .inr (.inl ⟨v, hv⟩)
    · exact .inr (.inr hlatch)
  · exact .inr (.inr (Mem.signalled_effect hlatch))

/-- The Timer keeps every registered waiter in reach. -/
lemma Sourced.timer {m m' : Mem σ Tid} {R : Tid → Res} {e : TimerEvent Tid} {b : TimerDid Tid}
    (h : Sourced m R) (he : m.timer e = some (m', b)) : Sourced m' R := by
  intro t g hg
  have hreg : m'.registrations = m.registrations := by
    simp only [Mem.registrations, (Mem.timer_frame he).registry]
  rw [hreg]
  rcases h t g hg with h1 | h1 | h1
  · exact .inl h1
  · exact .inr (.inl h1)
  · refine .inr (.inr ?_)
    rcases Mem.timer_eq_some he with ⟨d, rfl, -⟩ | ⟨t, f, r, hf, -, rfl, -⟩ | ⟨a, ha, rfl, -⟩ |
      ⟨a, ha, rfl, -⟩
    · exact h1
    · exact h1
    all_goals
      by_cases hga : g.waiter = a
      · rw [hga]
        exact Function.update_self _ _ _
      · exact (Function.update_of_ne hga _ _).trans h1

/-! ## Runs of typed programs -/

/-- The memory agrees with the resources of the threads. -/
structure Owned (m : Mem σ Tid) (R : Tid → Res) : Prop where
  lock : LockOwned m R
  future : FutureOwned m R
  reg : RegOwned m R
  waiter : WaiterOwned m R
  source : Sourced m R

omit [DecidableEq Tid] in
/-- A fresh monitor agrees with threads that own nothing. -/
lemma Owned.init {poisons : Bool} {v : σ} {clock : ℕ} {R : Tid → Res} (hR : ∀ t, R t = .idle) :
    Owned (.init poisons v clock) R := by
  refine ⟨⟨?_, ?_⟩, ?_, ⟨.new, ?_, ?_, ?_⟩, ⟨?_, ?_, ?_, ?_, ?_, ?_, ?_, ?_⟩, ?_⟩
  all_goals simp [hR, Res.idle, Mem.init, FutureOwned, Sourced, Mem.registrations]

/-- A report keeps the agreement. -/
lemma Owned.did {m : Mem σ Tid} {R : Tid → Res} {t : Tid} {d : Did σ ρ} {r' : Res}
    (h : Owned m R) (ha : m.Allows t d) (hs : (R t).Step d r') :
    Owned (m.effect t d) (Function.update R t r') :=
  ⟨h.lock.did ha hs, h.future.did hs, h.reg.did ha hs, h.waiter.did h.reg ha hs,
    h.source.did h.reg ha hs⟩

/-- The Timer keeps the agreement. -/
lemma Owned.timer {m m' : Mem σ Tid} {R : Tid → Res} {e : TimerEvent Tid} {b : TimerDid Tid}
    (h : Owned m R) (he : m.timer e = some (m', b)) : Owned m' R :=
  ⟨h.lock.timer he, h.future.timer he, h.reg.timer he, h.waiter.timer he, h.source.timer he⟩

/-- The resources after a step of thread `t` to program counter `p`. -/
lemma typ_update (typ : Pc → Res) (pc : Tid → Pc) (t : Tid) (p : Pc) :
    (fun u => typ (Function.update pc t p u)) = Function.update (fun u => typ (pc u)) t (typ p) := by
  funext u
  by_cases hu : u = t
  · subst hu
    simp
  · simp [hu]

variable {P : Program σ ρ Pc Choice}

/-- In a memory that agrees with the resources, a fired primitive is a typing step. -/
lemma Program.Typed.step_of_fire (T : P.Typed Tid) {m : Mem σ Tid} {pc : Tid → Pc} {t : Tid}
    {o : Option TimeError} {d : Did σ ρ} {p : Pc} (h : Owned m fun u => T.typ (pc u))
    (hf : P.threads.fire m t o (pc t) = some (d, p)) : (T.typ (pc t)).Step d (T.typ p) :=
  T.fire_next (h.lock.slot t) hf

/-- **The memory of a typed program agrees with the resources of its threads** in every run that
starts with a fresh monitor.

**Proof sketch.** Induction on the run: a report leads from the resources of its program counter to
those of the next one, which is what the typing says. -/
theorem Program.Typed.owned (T : P.Typed Tid) {s₀ : Setup σ}
    {tr : List (Program.Label σ ρ Choice Tid)} {c : Threads.Conf (Mem σ Tid) Tid Pc}
    (h : P.Run s₀ tr c) : Owned c.mem fun t => T.typ (c.pc t) := by
  refine Threads.Run.rule (I := fun _ m pc => Owned m fun t => T.typ (pc t)) P.threads
    (Owned.init fun _ => T.typ_idle) ?_ ?_ ?_ h
  · intro tr m pc t o d p _ hi hf
    rw [typ_update]
    exact hi.did (Cmd.fire_allows hf) (T.step_of_fire hi hf)
  · intro tr m pc t x p _ hi hj
    rw [typ_update, T.jump_typ hj, Function.update_eq_self]
    exact hi
  · intro tr m pc e m' b _ hi he
    exact hi.timer he

/-- A primitive of thread `t` fires in a run: it reports `d` and continues at `p`. -/
structure Program.Typed.Fires (T : P.Typed Tid) (m : Mem σ Tid) (pc : Tid → Pc) (t : Tid)
    (d : Did σ ρ) (p : Pc) : Prop where
  owned : Owned m fun u => T.typ (pc u)
  reports : (P.code (pc t)).Reports d p
  allows : m.Allows t d
  step : (T.typ (pc t)).Step d (T.typ p)

/-- A primitive that fires in a memory which agrees with the resources. -/
lemma Program.Typed.fires (T : P.Typed Tid) {m : Mem σ Tid} {pc : Tid → Pc} {t : Tid}
    {o : Option TimeError} {d : Did σ ρ} {p : Pc} (h : Owned m fun u => T.typ (pc u))
    (hf : P.threads.fire m t o (pc t) = some (d, p)) : T.Fires m pc t d p := by
  have hstep := T.step_of_fire h hf
  refine ⟨h, Cmd.fire_reports hf ?_, Cmd.fire_allows hf, hstep⟩
  rintro rfl
  exact hstep.1

/-- Every report of a trace was made by a primitive that fired in the run. -/
lemma Program.Typed.fires_of_suffix (T : P.Typed Tid) {s₀ : Setup σ}
    {tr past : List (Program.Label σ ρ Choice Tid)} {c : Threads.Conf (Mem σ Tid) Tid Pc}
    (h : P.Run s₀ tr c) {t : Tid} {d : Did σ ρ} (hs : .did t d :: past <:+ tr) :
    ∃ m pc p, P.Run s₀ past ⟨m, pc⟩ ∧ T.Fires m pc t d p := by
  obtain ⟨⟨m, pc⟩, e, c₁, hr, hstep⟩ := Lts.Run.exists_step h hs
  rcases P.threads.step_eq_some hstep with ⟨u, o, d', p, -, hf, -, hl⟩ | ⟨_, _, _, -, -, -, hl⟩ |
    ⟨_, _, _, -, -, -, hl⟩
  · cases hl
    exact ⟨m, pc, p, hr, T.fires (T.owned hr) hf⟩
  · cases hl
  · cases hl

/-- The latest report of a run was made by a primitive that fired. -/
lemma Program.Typed.fires_of_did (T : P.Typed Tid) {s₀ : Setup σ}
    {past : List (Program.Label σ ρ Choice Tid)} {c : Threads.Conf (Mem σ Tid) Tid Pc} {t : Tid}
    {d : Did σ ρ} (h : P.Run s₀ (.did t d :: past) c) :
    ∃ m pc p, P.Run s₀ past ⟨m, pc⟩ ∧ T.Fires m pc t d p ∧
      c = ⟨m.effect t d, Function.update pc t p⟩ := by
  cases h with
  | cons e hr hs =>
    rcases P.threads.step_eq_some hs with ⟨u, o, d', p, -, hf, rfl, hl⟩ | ⟨_, _, _, -, -, -, hl⟩ |
      ⟨_, _, _, -, -, -, hl⟩
    · cases hl
      exact ⟨_, _, p, hr, T.fires (T.owned hr) hf, rfl⟩
    · cases hl
    · cases hl

/-- **The invariant rule for runs of a typed program.** -/
theorem Program.Typed.rule (T : P.Typed Tid) {s₀ : Setup σ}
    {I : List (Program.Label σ ρ Choice Tid) → Mem σ Tid → (Tid → Pc) → Prop}
    (h₀ : I [] (.init s₀.poisons s₀.value s₀.clock) fun _ => P.idle)
    (hfire : ∀ {tr m pc t d p}, P.Run s₀ tr ⟨m, pc⟩ → I tr m pc → T.Fires m pc t d p →
      I (.did t d :: tr) (m.effect t d) (Function.update pc t p))
    (hjump : ∀ {tr m pc t x p}, P.Run s₀ tr ⟨m, pc⟩ → I tr m pc → P.jump (pc t) x = some p →
      I (.chose t x :: tr) m (Function.update pc t p))
    (htimer : ∀ {tr m pc e m' b}, P.Run s₀ tr ⟨m, pc⟩ → I tr m pc → m.timer e = some (m', b) →
      I (.ambient b :: tr) m' pc)
    {tr : List (Program.Label σ ρ Choice Tid)} {c : Threads.Conf (Mem σ Tid) Tid Pc}
    (h : P.Run s₀ tr c) : I tr c.mem c.pc := by
  refine Threads.Run.rule P.threads h₀ ?_ hjump htimer h
  intro tr m pc t o d p hr hi hf
  exact hfire hr hi (T.fires (T.owned hr) hf)

end QubitLock
