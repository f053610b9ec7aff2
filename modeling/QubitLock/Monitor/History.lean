import Mathlib.Data.List.Nodup
import QubitLock.Monitor.Ownership

set_option relaxedAutoImplicit false
set_option autoImplicit false

/-!
# The history of the registrations

What the trace of a run says about registrations, without looking at the memory: which were made,
which notifications took, which were removed by their own drop, which object a thread holds now,
and in which order the others are queued. The registry of the memory is the queue of the trace.

## Main definitions

* `liveReg` — the registration object that a thread has created and not dropped yet.
* `made`, `taken`, `dropped` — the registrations that were made, that notifications took, and that
  their own drop removed.
* `queue` — the registrations that wait to be taken, in the order of their registration.
* `lastTake`, `madeSinceTake` — what the latest notification of a thread took, and the
  registrations made since.
* `setSinceRegistration`, `handedOver` — the waiters whose latch was set since the latest
  registration of a thread, and the waiters whose waker a Timer was given.

## Main results

* `Program.Typed.history` — the trace and the memory of a run agree.
* `History.perm` — a registration that was made was taken by one notification, was removed by its
  own drop, or is in the registry, and only one of these.
-/

namespace QubitLock

variable {σ ρ Pc Choice Tid : Type}

/-! ## Reports -/

/-- The registrations that a report takes from the registry for a notification. -/
def Did.taken : Did σ ρ → List Registration
  | .tookOne r => r.toList
  | .tookAll rs => rs
  | _ => []

/-- The report is the take step of a notification. -/
def Did.isTake : Did σ ρ → Bool
  | .tookOne _ | .tookAll _ => true
  | _ => false

/-- The registration object of a thread after a report. -/
def Did.live (d : Did σ ρ) (r : Option Registration) : Option Registration :=
  match d with
  | .registered (some g) => some g
  | .unregistered _ _ => none
  | _ => r

/-- The registration object that a report removes from the registry by dropping it. -/
def Did.dropped (d : Did σ ρ) (r : Option Registration) : List Registration :=
  match d with
  | .unregistered _ true => r.toList
  | _ => []

/-- The report is a registration. -/
def Did.isRegister : Did σ ρ → Bool
  | .registered _ => true
  | _ => false

/-- The waiter whose waker a report gives to a Timer. -/
def Did.handed : Did σ ρ → List ℕ
  | .polled (.waiter a) _ => [a]
  | _ => []

/-- The waiter whose latch a label sets. -/
def setBy : Program.Label σ ρ Choice Tid → List ℕ
  | .did _ (.signalled a) => [a]
  | .ambient (.timerWoke a) => [a]
  | .ambient (.spuriouslyWoke a) => [a]
  | _ => []

/-! ## Traces -/

section Traces

/-- The registrations that were made, newest first. -/
def made : List (Program.Label σ ρ Choice Tid) → List Registration
  | [] => []
  | .did _ d :: tr => d.entered.toList ++ made tr
  | .chose _ _ :: tr => made tr
  | .ambient _ :: tr => made tr

/-- The registrations that notifications took. -/
def taken : List (Program.Label σ ρ Choice Tid) → List Registration
  | [] => []
  | .did _ d :: tr => d.taken ++ taken tr
  | .chose _ _ :: tr => taken tr
  | .ambient _ :: tr => taken tr

/-- The registrations that wait to be taken, oldest first. -/
def queue : List (Program.Label σ ρ Choice Tid) → List Registration
  | [] => []
  | .did _ d :: tr => d.left (queue tr) ++ d.entered.toList
  | .chose _ _ :: tr => queue tr
  | .ambient _ :: tr => queue tr

/-- The waiters whose waker a Timer was given. -/
def handedOver : List (Program.Label σ ρ Choice Tid) → List ℕ
  | [] => []
  | .did _ d :: tr => d.handed ++ handedOver tr
  | .chose _ _ :: tr => handedOver tr
  | .ambient _ :: tr => handedOver tr

variable [DecidableEq Tid]

/-- The registration object of a thread: created by a registration and not dropped yet. -/
def liveReg : List (Program.Label σ ρ Choice Tid) → Tid → Option Registration
  | [], _ => none
  | .did u d :: tr, t => if u = t then d.live (liveReg tr t) else liveReg tr t
  | .chose _ _ :: tr, t => liveReg tr t
  | .ambient _ :: tr, t => liveReg tr t

/-- The registrations that were removed by the drop of their own object. -/
def dropped : List (Program.Label σ ρ Choice Tid) → List Registration
  | [] => []
  | .did t d :: tr => d.dropped (liveReg tr t) ++ dropped tr
  | .chose _ _ :: tr => dropped tr
  | .ambient _ :: tr => dropped tr

/-- What the latest notification of a thread took. -/
def lastTake : List (Program.Label σ ρ Choice Tid) → Tid → List Registration
  | [], _ => []
  | .did u d :: tr, t => if u = t ∧ d.isTake then d.taken else lastTake tr t
  | .chose _ _ :: tr, t => lastTake tr t
  | .ambient _ :: tr, t => lastTake tr t

/-- The registrations made since the take step of the latest notification of a thread. -/
def madeSinceTake : List (Program.Label σ ρ Choice Tid) → Tid → List Registration
  | [], _ => []
  | .did u d :: tr, t => if u = t ∧ d.isTake then [] else d.entered.toList ++ madeSinceTake tr t
  | .chose _ _ :: tr, t => madeSinceTake tr t
  | .ambient _ :: tr, t => madeSinceTake tr t

/-- The waiters whose latch was set since the latest registration of a thread. -/
def setSinceRegistration : List (Program.Label σ ρ Choice Tid) → Tid → List ℕ
  | [], _ => []
  | .did u d :: tr, t =>
    if u = t ∧ d.isRegister then []
    else setBy (.did u d : Program.Label σ ρ Choice Tid) ++ setSinceRegistration tr t
  | .chose _ _ :: tr, t => setSinceRegistration tr t
  | .ambient b :: tr, t =>
    setBy (.ambient b : Program.Label σ ρ Choice Tid) ++ setSinceRegistration tr t

end Traces

/-! ## The trace and the memory agree -/

variable [DecidableEq Tid]

/-- The trace and the memory of a run tell the same about registrations and waiter objects. -/
structure History (tr : List (Program.Label σ ρ Choice Tid)) (m : Mem σ Tid) (R : Tid → Res) :
    Prop where
  /-- The registration objects are those that the threads own. -/
  live : ∀ t, liveReg tr t = (R t).reg
  /-- The registry is the queue. -/
  queue : m.registrations = queue tr
  /-- Identifiers and waiter objects are used once, in increasing order. -/
  sorted : (made tr).Pairwise fun g g' => g'.waiterId < g.waiterId ∧ g'.waiter < g.waiter
  made_lt : ∀ g ∈ made tr, g.waiterId < m.registry.nextWaiterId ∧ g.waiter < m.nextWaiter
  /-- A registration leaves the registry once. -/
  perm : (taken tr ++ (dropped tr ++ QubitLock.queue tr)).Perm (made tr)
  /-- A registration object is in the registry until a notification takes it. -/
  live_kept : ∀ t g, liveReg tr t = some g → g ∈ QubitLock.queue tr ∨ g ∈ taken tr
  /-- A notification signals only what it took. -/
  sig : ∀ t a, a ∈ (R t).sig → ∃ g ∈ lastTake tr t, g.waiter = a
  lastTake_taken : ∀ t, ∀ g ∈ lastTake tr t, g ∈ taken tr
  /-- What was registered after a take step is not what it took. -/
  sinceTake : ∀ t, ∀ g ∈ lastTake tr t, ∀ g' ∈ madeSinceTake tr t, g.waiter < g'.waiter
  /-- The wakers that a Timer was given. -/
  handed : m.handed = handedOver tr
  waker_handed : ∀ {t f a}, m.future t = some f → f.waker = some (.waiter a) → a ∈ m.handed
  inFlight_handed : ∀ {a}, a ∈ m.inFlight → a ∈ m.handed
  /-- A latch is set by a notification that took the waiter, or by a Timer that has its waker. -/
  latch : ∀ a, m.signalled a = true → (∃ g ∈ taken tr, g.waiter = a) ∨ a ∈ handedOver tr
  /-- The latch of a registered waiter was set after its registration. -/
  fresh : ∀ t g, (R t).reg = some g → m.signalled g.waiter = true →
    g.waiter ∈ setSinceRegistration tr t

section Did

variable {tr : List (Program.Label σ ρ Choice Tid)} {m : Mem σ Tid} {R : Tid → Res} {t : Tid}
  {d : Did σ ρ} {r' : Res}

omit [DecidableEq Tid] in
/-- The registration object of a thread follows its reports. -/
lemma Res.Step.live {r : Res} (hs : r.Step d r') : r'.reg = d.live r.reg := by
  rw [hs.2.reg, Res.after_reg]
  have hneeds := hs.1
  cases d with
  | registered g => cases g <;> rfl
  | returned | unwound => exact hneeds.1.symm
  | guardReturned => exact hneeds.2.1.symm
  | _ => rfl

/-- A report keeps the agreement on registration objects. -/
lemma History.live_did (h : History tr m R) (hs : (R t).Step d r') (u : Tid) :
    liveReg (.did t d :: tr) u = (Function.update R t r' u).reg := by
  by_cases hut : t = u
  · subst hut
    simp only [liveReg, if_true, Function.update_self, hs.live, h.live]
  · simp only [liveReg, hut, if_false, Function.update_of_ne (Ne.symm hut), h.live]

/-- A report keeps the agreement of registry and queue. -/
lemma History.queue_did (h : History tr m R) (ho : Owned m R) (ha : m.Allows t d) :
    (m.effect t d).registrations = QubitLock.queue (.did t d :: tr) := by
  rw [Mem.registrations_effect ho.reg.wellFormed ha, h.queue]
  rfl

/-- A registration that a report makes has the next identifier and the next waiter object. -/
lemma entered_eq (ho : Owned m R) (ha : m.Allows t d) {g : Registration} (hg : d.entered = some g) :
    g.waiterId = m.registry.nextWaiterId ∧ g.waiter = m.nextWaiter ∧
      (m.effect t d).registry.nextWaiterId = m.registry.nextWaiterId + 1 ∧
      (m.effect t d).nextWaiter = m.nextWaiter + 1 := by
  cases d with
  | registered g' =>
    obtain rfl : g' = some g := hg
    have hid := ho.reg.registered_id ha
    refine ⟨hid, ha.2, ?_, rfl⟩
    by_cases hlt : m.registry.nextWaiterId + 1 < 2 ^ 64
    · show (m.registry.register m.nextWaiter).2.nextWaiterId = _
      rw [WaiterRegistry.register_of_lt ho.reg.wellFormed _ hlt]
    · have hok := ha.1
      rw [WaiterRegistry.register_of_not_lt _ hlt] at hok
      cases hok
  | _ => cases hg

/-- The next identifier and the next waiter object never decrease. -/
lemma next_le (ho : Owned m R) (ha : m.Allows t d) :
    m.registry.nextWaiterId ≤ (m.effect t d).registry.nextWaiterId ∧
      m.nextWaiter ≤ (m.effect t d).nextWaiter := by
  cases d with
  | registered g =>
    cases g with
    | none =>
      obtain ⟨msg, hmsg⟩ := ha
      refine ⟨?_, Nat.le_succ _⟩
      show _ ≤ (m.registry.register m.nextWaiter).2.nextWaiterId
      rw [Mem.register_error_snd ho.reg.wellFormed hmsg]
    | some g =>
      obtain ⟨-, -, h1, h2⟩ := entered_eq (ρ := ρ) ho ha rfl
      omega
  | _ =>
    rw [m.effect_registry, m.effect_nextWaiter]
    exact ⟨le_rfl, le_rfl⟩

/-- A report keeps the identifiers and waiter objects of all registrations apart. -/
lemma History.made_did (h : History tr m R) (ho : Owned m R) (ha : m.Allows t d) :
    ((made (.did t d :: tr)).Pairwise fun g g' => g'.waiterId < g.waiterId ∧ g'.waiter < g.waiter) ∧
      ∀ g ∈ made (.did t d :: tr), g.waiterId < (m.effect t d).registry.nextWaiterId ∧
        g.waiter < (m.effect t d).nextWaiter := by
  have hle := next_le ho ha
  cases hd : d.entered with
  | none =>
    simp only [made, hd, Option.toList_none, List.nil_append]
    refine ⟨h.sorted, fun g hg => ?_⟩
    have := h.made_lt g hg
    omega
  | some g =>
    obtain ⟨h1, h2, h3, h4⟩ := entered_eq ho ha hd
    simp only [made, hd, Option.toList_some, List.singleton_append, List.pairwise_cons,
      List.mem_cons, forall_eq_or_imp]
    refine ⟨⟨fun g' hg' => ?_, h.sorted⟩, by omega, fun g' hg' => ?_⟩
    all_goals
      have := h.made_lt g' hg'
      omega

omit [DecidableEq Tid] in
/-- Removing an identifier from a list in which it is unique removes one registration. -/
lemma perm_filter_of_mem {gs : List Registration} {g : Registration} (hnodup : gs.Nodup)
    (hinj : ∀ g' ∈ gs, g'.waiterId = g.waiterId → g' = g) (hg : g ∈ gs) :
    gs.Perm (g :: gs.filter fun g' => g'.waiterId ≠ g.waiterId) := by
  have herase : (gs.filter fun g' => g'.waiterId ≠ g.waiterId) = gs.erase g := by
    rw [hnodup.erase_eq_filter]
    refine List.filter_congr fun g' hg' => ?_
    by_cases heq : g' = g
    · simp [heq]
    · have hne : g'.waiterId ≠ g.waiterId := fun h => heq (hinj g' hg' h)
      simp [heq, hne]
  rw [herase]
  exact List.perm_cons_erase hg

omit [DecidableEq Tid] in
/-- A report of a thread that drops its registration: the registration is removed if it is in the
registry, and nothing else is.

**Proof sketch.** The identifier belongs to one registration (`Owned`). If the registry had it, the
filter takes out that one and nothing else; if not, the filter takes out nothing. -/
lemma unregistered_perm (ho : Owned m R) {i : ℕ} {b : Bool} {g : Registration}
    (ha : m.Allows t (.unregistered i b : Did σ ρ)) (hg : (R t).reg = some g)
    (hi : g.waiterId = i) :
    m.registrations.Perm ((if b then [g] else []) ++
      m.registrations.filter fun g' => g'.waiterId ≠ i) := by
  subst hi
  have hinj : ∀ g' ∈ m.registrations, g'.waiterId = g.waiterId → g' = g := by
    intro g' hg' heq
    obtain ⟨u, hu⟩ := ho.reg.live hg'
    obtain rfl := ho.reg.id_inj hu hg heq
    rw [hu] at hg
    exact Option.some.inj hg
  have hb : b = (m.registry.unregister g.waiterId).1.isSome := ha
  cases b with
  | true =>
    obtain ⟨g', hg', heq⟩ := m.unregister_isSome.mp hb.symm
    obtain rfl := hinj g' hg' heq
    have hnodup : m.registrations.Nodup :=
      m.registrations_sorted.imp fun hlt heq => by simp [heq] at hlt
    exact perm_filter_of_mem hnodup hinj hg'
  | false =>
    have hnone : ∀ g' ∈ m.registrations, g'.waiterId ≠ g.waiterId := by
      intro g' hg' heq
      rw [m.unregister_isSome.mpr ⟨g', hg', heq⟩] at hb
      cases hb
    rw [List.filter_eq_self.mpr fun g' hg' => by simpa using hnone g' hg']
    exact List.Perm.refl _

/-- **A report keeps the account of registrations**: it makes a new one, a notification takes some
off the queue, or a thread drops its own.

**Proof sketch.** By counting. A registration is counted once more among those that were made and in the
queue; what a notification takes leaves the queue; and a registration that is dropped leaves the queue
if it was there. -/
lemma History.perm_did (h : History tr m R) (ho : Owned m R) (ha : m.Allows t d)
    (hs : (R t).Step d r') :
    (taken (.did t d :: tr) ++ (dropped (.did t d :: tr) ++ QubitLock.queue (.did t d :: tr))).Perm
      (made (.did t d :: tr)) := by
  have hold := List.perm_iff_count.mp h.perm
  rw [List.perm_iff_count]
  intro x
  have hx := hold x
  rw [← h.queue] at hx
  simp only [taken, dropped, QubitLock.queue, made, ← h.queue, List.count_append] at hx ⊢
  cases d with
  | registered g =>
    simp only [Did.taken, Did.dropped, Did.left, Did.entered, List.count_nil]
    omega
  | tookOne r =>
    obtain rfl : r = m.registrations.head? := ha
    have hsplit : m.registrations.count x =
        m.registrations.head?.toList.count x + m.registrations.tail.count x := by
      rw [← List.count_append]
      cases m.registrations <;> rfl
    simp only [Did.taken, Did.dropped, Did.left, Did.entered, Option.toList_none, List.count_nil]
    omega
  | tookAll rs =>
    obtain rfl : rs = m.registrations := ha
    simp only [Did.taken, Did.dropped, Did.left, Did.entered, Option.toList_none, List.count_nil]
    omega
  | unregistered i b =>
    obtain ⟨g, hg, hi⟩ := hs.1
    have hdrop := (List.perm_iff_count.mp (unregistered_perm ho ha hg hi)) x
    have hlive : liveReg tr t = some g := (h.live t).trans hg
    rw [List.count_append] at hdrop
    cases b
    all_goals
      simp only [Did.taken, Did.dropped, Did.left, Did.entered, hlive, Option.toList_some,
        Option.toList_none, List.count_nil, if_true, if_false, reduceCtorEq] at hdrop ⊢
      omega
  | _ =>
    simp only [Did.taken, Did.dropped, Did.left, Did.entered, Option.toList_none, List.count_nil]
    omega

/-- A report keeps registration objects in the registry unless it takes them.

**Proof sketch.** The new registration of the thread enters the queue. Another one was in the queue or
taken before, and it leaves the queue only if it is taken, since a drop removes the registration of the
thread that drops and identifiers are not shared. -/
lemma History.live_kept_did (h : History tr m R) (ho : Owned m R) (ha : m.Allows t d)
    (hs : (R t).Step d r') (u : Tid) (g : Registration)
    (hu : liveReg (.did t d :: tr) u = some g) :
    g ∈ QubitLock.queue (.did t d :: tr) ∨ g ∈ taken (.did t d :: tr) := by
  simp only [QubitLock.queue, taken, List.mem_append]
  by_cases hd : t = u ∧ d.entered = some g
  · exact .inl (.inr (by simp [hd.2]))
  · have hold : liveReg tr u = some g ∧ ∀ i b, d = .unregistered i b → t ≠ u := by
      simp only [liveReg] at hu
      by_cases hut : t = u
      · subst hut
        simp only [if_true] at hu
        cases d with
        | registered r =>
          cases r with
          | none => exact ⟨hu, fun _ _ hd => by cases hd⟩
          | some g' =>
            cases hu
            exact absurd ⟨rfl, rfl⟩ hd
        | unregistered => cases hu
        | _ => exact ⟨hu, fun _ _ hd => by cases hd⟩
      · simp only [hut, if_false] at hu
        exact ⟨hu, fun _ _ _ => hut⟩
    rcases h.live_kept u g hold.1 with hq | ht
    · cases d with
      | unregistered i b =>
        obtain ⟨g', hg', rfl⟩ := hs.1
        refine .inl (.inl (List.mem_filter.mpr ⟨hq, ?_⟩))
        simp only [ne_eq, decide_eq_true_eq]
        intro heq
        exact hold.2 _ _ rfl (ho.reg.id_inj ((h.live u).symm.trans hold.1) hg' heq).symm
      | tookOne r =>
        obtain rfl : r = m.registrations.head? := ha
        rw [h.queue]
        cases hl : QubitLock.queue tr with
        | nil => simp [hl] at hq
        | cons g₀ gs =>
          rw [hl] at hq
          rcases List.mem_cons.mp hq with rfl | hq
          · exact .inr (.inl (by simp [Did.taken]))
          · exact .inl (.inl hq)
      | tookAll rs =>
        obtain rfl : rs = m.registrations := ha
        exact .inr (.inl (h.queue ▸ hq))
      | _ => exact .inl (.inl hq)
    · exact .inr (.inr ht)

/-- A report keeps the pending signals among what their notification took. -/
lemma History.sig_did (h : History tr m R) (hs : (R t).Step d r') (u : Tid) (a : ℕ)
    (ha : a ∈ (Function.update R t r' u).sig) :
    ∃ g ∈ lastTake (.did t d :: tr) u, g.waiter = a := by
  by_cases hut : t = u
  · subst hut
    rw [Function.update_self, hs.2.sig, Res.after_sig] at ha
    cases d with
    | tookOne r | tookAll rs =>
      obtain ⟨g, hg, rfl⟩ := List.mem_map.mp ha
      exact ⟨g, by simpa [lastTake, Did.isTake, Did.taken] using hg, rfl⟩
    | signalled b =>
      obtain ⟨g, hg, rfl⟩ := h.sig t a (List.mem_of_mem_tail ha)
      exact ⟨g, by simpa [lastTake, Did.isTake] using hg, rfl⟩
    | returned | guardReturned | unwound => cases ha
    | _ =>
      obtain ⟨g, hg, rfl⟩ := h.sig t a ha
      exact ⟨g, by simpa [lastTake, Did.isTake] using hg, rfl⟩
  · rw [Function.update_of_ne (Ne.symm hut)] at ha
    simpa [lastTake, hut] using h.sig u a ha

/-- What the latest notification of a thread took after a report was taken. -/
lemma History.lastTake_taken_did (h : History tr m R) (u : Tid) (g : Registration)
    (hg : g ∈ lastTake (.did t d :: tr) u) : g ∈ taken (.did t d :: tr) := by
  simp only [lastTake] at hg
  simp only [taken, List.mem_append]
  split at hg
  · exact .inl hg
  · exact .inr (h.lastTake_taken u g hg)

/-- A taken registration was made. -/
lemma History.made_of_taken (h : History tr m R) {g : Registration} (hg : g ∈ taken tr) :
    g ∈ made tr :=
  h.perm.subset (List.mem_append_left _ hg)

/-- A report keeps new registrations apart from what earlier notifications took. -/
lemma History.sinceTake_did (h : History tr m R) (ho : Owned m R) (ha : m.Allows t d) (u : Tid)
    (g : Registration) (hg : g ∈ lastTake (.did t d :: tr) u) (g' : Registration)
    (hg' : g' ∈ madeSinceTake (.did t d :: tr) u) : g.waiter < g'.waiter := by
  simp only [lastTake, madeSinceTake] at hg hg'
  split at hg
  · rename_i hcond
    simp [hcond] at hg'
  · rename_i hcond
    simp only [hcond, if_false, List.mem_append, Option.mem_toList] at hg'
    rcases hg' with hg' | hg'
    · have hlt := (h.made_lt g (h.made_of_taken (h.lastTake_taken u g hg))).2
      rw [(entered_eq ho ha hg').2.1]
      exact hlt
    · exact h.sinceTake u g hg g' hg'

/-- A report keeps the record of wakers that a Timer was given. -/
lemma History.handed_did (h : History tr m R) :
    (m.effect t d).handed = handedOver (.did t d :: tr) := by
  rw [m.effect_handed]
  simp only [handedOver, ← h.handed]
  cases d with
  | polled w r => cases w <;> rfl
  | _ => rfl

/-- Wakers that a Timer was given stay recorded. -/
lemma handed_subset {a : ℕ} (ha : a ∈ m.handed) : a ∈ (m.effect t d).handed := by
  rw [m.effect_handed]
  split
  · exact List.mem_cons_of_mem _ ha
  · exact ha

/-- A report keeps the wakers of Timer futures among those that a Timer was given. -/
lemma History.waker_handed_did (h : History tr m R) {u : Tid} {f : TimerFuture} {a : ℕ}
    (hf : (m.effect t d).future u = some f) (ha : f.waker = some (.waiter a)) :
    a ∈ (m.effect t d).handed := by
  rcases waker_of_effect hf ha with ⟨f', hf', ha'⟩ | ⟨r, rfl⟩
  · exact handed_subset (h.waker_handed hf' ha')
  · rw [m.effect_handed]
    exact List.mem_cons_self

/-- A report sets only latches of waiters that its notification took. -/
lemma History.latch_did (h : History tr m R) (hs : (R t).Step d r') (a : ℕ)
    (hset : (m.effect t d).signalled a = true) :
    (∃ g ∈ taken (.did t d :: tr), g.waiter = a) ∨ a ∈ handedOver (.did t d :: tr) := by
  have hkeep : m.signalled a = true →
      (∃ g ∈ taken (.did t d :: tr), g.waiter = a) ∨ a ∈ handedOver (.did t d :: tr) := by
    intro hset
    refine (h.latch a hset).imp ?_ ?_
    · rintro ⟨g, hg, rfl⟩
      exact ⟨g, List.mem_append_right _ hg, rfl⟩
    · exact fun hmem => List.mem_append_right _ hmem
  rw [m.effect_signalled] at hset
  cases d with
  | signalled b =>
    by_cases hab : a = b
    · subst hab
      have hmem : a ∈ (R t).sig := List.mem_of_mem_head? hs.1
      obtain ⟨g, hg, rfl⟩ := h.sig t a hmem
      exact .inl ⟨g, List.mem_append_right _ (h.lastTake_taken t g hg), rfl⟩
    · dsimp only at hset
      rw [Function.update_of_ne hab] at hset
      exact hkeep hset
  | _ => exact hkeep hset

/-- A report keeps the record of latches set since the registration of a thread.

**Proof sketch.** A registration has a fresh waiter object, whose latch is not set. For an old one the
latch was set before, or it is set by this very report. -/
lemma History.fresh_did (h : History tr m R) (ho : Owned m R) (ha : m.Allows t d)
    (hs : (R t).Step d r') (u : Tid) (g : Registration)
    (hu : (Function.update R t r' u).reg = some g)
    (hset : (m.effect t d).signalled g.waiter = true) :
    g.waiter ∈ setSinceRegistration (.did t d :: tr) u := by
  by_cases hreg : t = u ∧ d.isRegister = true
  · -- a fresh waiter object is not signalled
    obtain ⟨rfl, hreg⟩ := hreg
    rw [Function.update_self, hs.live] at hu
    cases d with
    | registered r =>
      have hset : m.signalled g.waiter = true := by simpa [m.effect_signalled] using hset
      cases r with
      | none =>
        rw [show (Did.registered none : Did σ ρ).live (R t).reg = (R t).reg from rfl,
          hs.1.2] at hu
        cases hu
      | some g' =>
        cases hu
        exact absurd (ho.waiter.signalled_lt hset) (by rw [ha.2]; exact lt_irrefl _)
    | _ => cases hreg
  · simp only [setSinceRegistration, hreg, if_false, List.mem_append]
    have hold : (R u).reg = some g := by
      by_cases hut : t = u
      · subst hut
        rw [Function.update_self, hs.live] at hu
        cases d with
        | registered => exact absurd ⟨rfl, rfl⟩ hreg
        | unregistered => cases hu
        | _ => exact hu
      · rwa [Function.update_of_ne (Ne.symm hut)] at hu
    rw [m.effect_signalled] at hset
    cases d with
    | signalled b =>
      by_cases hab : g.waiter = b
      · exact .inl (by simp [setBy, hab])
      · dsimp only at hset
        rw [Function.update_of_ne hab] at hset
        exact .inr (h.fresh u g hold hset)
    | _ => exact .inr (h.fresh u g hold hset)

/-- A report keeps the agreement of trace and memory. -/
lemma History.did (h : History tr m R) (ho : Owned m R) (ha : m.Allows t d)
    (hs : (R t).Step d r') : History (.did t d :: tr) (m.effect t d) (Function.update R t r') where
  live := h.live_did hs
  queue := h.queue_did ho ha
  sorted := (h.made_did ho ha).1
  made_lt := (h.made_did ho ha).2
  perm := h.perm_did ho ha hs
  live_kept := h.live_kept_did ho ha hs
  sig := h.sig_did hs
  lastTake_taken := h.lastTake_taken_did
  sinceTake := h.sinceTake_did ho ha
  handed := h.handed_did
  waker_handed := h.waker_handed_did
  inFlight_handed ha := handed_subset (h.inFlight_handed (m.effect_inFlight t d ▸ ha))
  latch := h.latch_did hs
  fresh := h.fresh_did ho ha hs

/-- The Timer sets only latches of waiters whose waker it was given. -/
lemma History.set_by_timer {m' : Mem σ Tid} {e : TimerEvent Tid} {b : TimerDid Tid}
    (h : History tr m R) (he : m.timer e = some (m', b)) {a : ℕ} (ha : m'.signalled a = true) :
    m.signalled a = true ∨
      (a ∈ m.handed ∧ a ∈ setBy (.ambient b : Program.Label σ ρ Choice Tid)) := by
  rcases Mem.timer_eq_some he with ⟨d, rfl, -⟩ | ⟨t, f, r, -, -, rfl, -⟩ | ⟨a', ha', rfl, rfl⟩ |
    ⟨a', ha', rfl, rfl⟩
  · exact .inl ha
  · exact .inl ha
  · by_cases haa : a = a'
    · subst haa
      exact .inr ⟨h.inFlight_handed ha', by simp [setBy]⟩
    · dsimp only at ha
      rw [Function.update_of_ne haa] at ha
      exact .inl ha
  · by_cases haa : a = a'
    · subst haa
      exact .inr ⟨ha', by simp [setBy]⟩
    · dsimp only at ha
      rw [Function.update_of_ne haa] at ha
      exact .inl ha

/-- The Timer takes and wakes only wakers that it was given. -/
lemma History.handed_by_timer {m' : Mem σ Tid} {e : TimerEvent Tid} {b : TimerDid Tid}
    (h : History tr m R) (he : m.timer e = some (m', b)) :
    (∀ {t f a}, m'.future t = some f → f.waker = some (.waiter a) → a ∈ m'.handed) ∧
      ∀ {a}, a ∈ m'.inFlight → a ∈ m'.handed := by
  rcases Mem.timer_eq_some he with ⟨d, rfl, -⟩ | ⟨t, f, r, hf, -, rfl, -⟩ | ⟨a', ha', rfl, -⟩ |
    ⟨a', ha', rfl, -⟩
  · exact ⟨h.waker_handed, h.inFlight_handed⟩
  · refine ⟨fun {u f' a} hf' ha => ?_, fun {a} ha => ?_⟩
    · by_cases hut : u = t
      · subst hut
        simp only [Mem.complete, Function.update_self, Option.some.injEq] at hf'
        subst hf'
        simp [TimerFuture.complete] at ha
      · simp only [Mem.complete, Function.update_of_ne hut] at hf'
        exact h.waker_handed hf' ha
    · simp only [Mem.complete] at ha ⊢
      split at ha
      · rename_i a₀ hw
        rcases List.mem_cons.mp ha with rfl | ha
        · exact h.waker_handed hf hw
        · exact h.inFlight_handed ha
      · exact h.inFlight_handed ha
  · exact ⟨h.waker_handed, fun ha => h.inFlight_handed (List.mem_of_mem_erase ha)⟩
  · exact ⟨h.waker_handed, h.inFlight_handed⟩

/-- The Timer keeps the agreement of trace and memory. -/
lemma History.timer {m' : Mem σ Tid} {e : TimerEvent Tid} {b : TimerDid Tid}
    (h : History tr m R) (he : m.timer e = some (m', b)) : History (.ambient b :: tr) m' R := by
  have hfr := Mem.timer_frame he
  have hreg : m'.registrations = m.registrations := by
    simp only [Mem.registrations, hfr.registry]
  refine ⟨h.live, hreg.trans h.queue, h.sorted, ?_, h.perm, h.live_kept, h.sig, h.lastTake_taken,
    h.sinceTake, hfr.handed.trans h.handed, (h.handed_by_timer he).1, (h.handed_by_timer he).2, ?_,
    ?_⟩
  · intro g hg
    rw [hfr.registry, hfr.nextWaiter]
    exact h.made_lt g hg
  · intro a ha
    rcases h.set_by_timer he ha with ha | ⟨ha, -⟩
    · exact h.latch a ha
    · exact .inr (h.handed ▸ ha)
  · intro t g hg ha
    rcases h.set_by_timer he ha with ha | ⟨-, ha⟩
    · exact List.mem_append_right _ (h.fresh t g hg ha)
    · exact List.mem_append_left _ ha

end Did

/-! ## Consequences -/

section Traces

omit [DecidableEq Tid]

variable {tr past : List (Program.Label σ ρ Choice Tid)}

/-- What was taken stays taken. -/
lemma taken_subset (h : past <:+ tr) : taken past ⊆ taken tr := by
  induction tr with
  | nil =>
    obtain rfl := List.suffix_nil.mp h
    exact List.Subset.refl _
  | cons l tr ih =>
    rcases List.suffix_cons_iff.mp h with rfl | hs
    · exact List.Subset.refl _
    · cases l with
      | did => exact List.subset_append_of_subset_right _ (ih hs)
      | chose | ambient => exact ih hs

/-- The queue is in the order of registration. -/
lemma queue_sublist (tr : List (Program.Label σ ρ Choice Tid)) :
    (queue tr).Sublist (made tr).reverse := by
  induction tr with
  | nil => exact List.Sublist.refl _
  | cons l tr ih =>
    cases l with
    | did t d =>
      have hentered : d.entered.toList.reverse = d.entered.toList := by cases d.entered <;> rfl
      simp only [queue, made, List.reverse_append, hentered]
      exact ((d.left_sublist _).trans ih).append (List.Sublist.refl _)
    | chose | ambient => exact ih

end Traces

section Consequences

variable {tr : List (Program.Label σ ρ Choice Tid)} {m : Mem σ Tid} {R : Tid → Res}

/-- No registration was made twice. -/
lemma History.made_nodup (h : History tr m R) : (made tr).Nodup :=
  h.sorted.imp fun hlt heq => by simp [heq] at hlt

/-- No registration was taken twice. -/
lemma History.taken_nodup (h : History tr m R) : (taken tr).Nodup :=
  (List.nodup_append.mp (h.perm.nodup_iff.mpr h.made_nodup)).1

/-- A registration is determined by its waiter object. -/
lemma History.eq_of_waiter_eq (h : History tr m R) {g g' : Registration} (hg : g ∈ made tr)
    (hg' : g' ∈ made tr) (heq : g.waiter = g'.waiter) : g = g' := by
  have hnodup : ((made tr).map Registration.waiter).Nodup :=
    List.pairwise_map.mpr (h.sorted.imp fun hlt => Nat.ne_of_gt hlt.2)
  exact List.inj_on_of_nodup_map hnodup hg hg' heq

/-- A registration in the registry was made. -/
lemma History.made_of_mem (h : History tr m R) {g : Registration} (hg : g ∈ m.registrations) :
    g ∈ made tr := by
  rw [h.queue] at hg
  exact h.perm.subset (List.mem_append_right _ (List.mem_append_right _ hg))

/-- A registration object was made. -/
lemma History.made_of_live (h : History tr m R) {t : Tid} {g : Registration}
    (hg : liveReg tr t = some g) : g ∈ made tr := by
  rcases h.live_kept t g hg with hq | ht
  · exact h.made_of_mem (h.queue ▸ hq)
  · exact h.made_of_taken ht

/-- A registration in the registry was not taken. -/
lemma History.not_taken_of_mem (h : History tr m R) {g : Registration}
    (hg : g ∈ m.registrations) : g ∉ taken tr := by
  intro ht
  have hnodup := h.perm.nodup_iff.mpr h.made_nodup
  rw [h.queue] at hg
  exact (List.nodup_append.mp hnodup).2.2 g ht g (List.mem_append_right _ hg) rfl

/-- **The registrations in the registry are the registration objects that were not taken.** -/
lemma History.mem_registrations_iff (h : History tr m R) (ho : Owned m R) {g : Registration} :
    g ∈ m.registrations ↔ (∃ t, liveReg tr t = some g) ∧ g ∉ taken tr := by
  constructor
  · intro hg
    obtain ⟨t, ht⟩ := ho.reg.live hg
    exact ⟨⟨t, (h.live t).trans ht⟩, h.not_taken_of_mem hg⟩
  · rintro ⟨⟨t, ht⟩, hnot⟩
    rw [h.queue]
    exact (h.live_kept t g ht).resolve_right hnot

/-- A registration object was made by the thread that has it. -/
lemma registered_of_live {tr : List (Program.Label σ ρ Choice Tid)} {t : Tid} {g : Registration}
    (h : liveReg tr t = some g) : .did t (.registered (some g)) ∈ tr := by
  induction tr with
  | nil => cases h
  | cons l tr ih =>
    cases l with
    | did u d =>
      simp only [liveReg] at h
      split at h
      · rename_i hut
        subst hut
        cases d with
        | registered r =>
          cases r with
          | none => exact List.mem_cons_of_mem _ (ih h)
          | some g' =>
            cases h
            exact List.mem_cons_self
        | unregistered => cases h
        | _ => exact List.mem_cons_of_mem _ (ih h)
      · exact List.mem_cons_of_mem _ (ih h)
    | chose | ambient => exact List.mem_cons_of_mem _ (ih h)

omit [DecidableEq Tid] in
/-- What a trace registers was made. -/
lemma mem_made {tr : List (Program.Label σ ρ Choice Tid)} {t : Tid} {g : Registration}
    (h : .did t (.registered (some g)) ∈ tr) : g ∈ made tr := by
  induction tr with
  | nil => cases h
  | cons l tr ih =>
    rcases List.mem_cons.mp h with rfl | hmem
    · exact List.mem_append_left _ (by simp [Did.entered])
    · cases l with
      | did => exact List.mem_append_right _ (ih hmem)
      | chose | ambient => exact ih hmem

omit [DecidableEq Tid] in
/-- A registration is made by one thread.

**Proof sketch.** Induction on the trace. The two reports cannot be different ones, because the
registration would then have been made twice. -/
lemma registered_unique {tr : List (Program.Label σ ρ Choice Tid)} (hn : (made tr).Nodup)
    {t u : Tid} {g : Registration} (ht : .did t (.registered (some g)) ∈ tr)
    (hu : .did u (.registered (some g)) ∈ tr) : t = u := by
  induction tr with
  | nil => cases ht
  | cons l tr ih =>
    cases l with
    | did v d =>
      have hn' : (made tr).Nodup := (List.nodup_append.mp hn).2.1
      have hnot : ∀ w, .did v d = (.did w (.registered (some g)) : Program.Label σ ρ Choice Tid) →
          g ∉ made tr := by
        rintro w hw hmem
        cases hw
        exact (List.nodup_append.mp hn).2.2 g (by simp [Did.entered]) g hmem rfl
      rcases List.mem_cons.mp ht with ht | ht <;> rcases List.mem_cons.mp hu with hu | hu
      · rw [← ht] at hu
        cases hu
        rfl
      · exact absurd (mem_made hu) (hnot t ht.symm)
      · exact absurd (mem_made ht) (hnot u hu.symm)
      · exact ih hn' ht hu
    | chose | ambient =>
      simp only [List.mem_cons, reduceCtorEq, false_or] at ht hu
      exact ih hn ht hu

/-- A thread without a registration object has no entry in the registry. -/
lemma History.not_mem_of_registered {tr : List (Program.Label σ ρ Choice Tid)} {m : Mem σ Tid}
    {R : Tid → Res} (h : History tr m R) (ho : Owned m R) {t : Tid} (ht : (R t).reg = none)
    {g : Registration} (hmade : .did t (.registered (some g)) ∈ tr) : g ∉ m.registrations := by
  intro hg
  obtain ⟨u, hu⟩ := ho.reg.live hg
  have hmade' := registered_of_live ((h.live u).trans hu)
  obtain rfl := registered_unique h.made_nodup hmade hmade'
  rw [ht] at hu
  cases hu

end Consequences

/-- **The trace and the memory of a run agree** on registrations and waiter objects.

**Proof sketch.** Induction on the run. A report is the lemma `History.did`, the Timer is
`History.timer`, and a choice changes no resources. -/
theorem Program.Typed.history {P : Program σ ρ Pc Choice} (T : P.Typed Tid) {s₀ : Setup σ}
    {tr : List (Program.Label σ ρ Choice Tid)} {c : Threads.Conf (Mem σ Tid) Tid Pc}
    (h : P.Run s₀ tr c) : History tr c.mem fun t => T.typ (c.pc t) := by
  refine T.rule (I := fun tr m pc => History tr m fun t => T.typ (pc t)) ?_ ?_ ?_ ?_ h
  · constructor <;> simp [T.typ_idle, Res.idle, liveReg, made, taken, dropped, queue, lastTake,
      handedOver, Mem.init, Mem.registrations]
  · intro tr m pc t d p _ hi hf
    rw [typ_update]
    exact hi.did hf.owned hf.allows hf.step
  · intro tr m pc t x p _ hi hj
    rw [typ_update, T.jump_typ hj, Function.update_eq_self]
    exact ⟨hi.live, hi.queue, hi.sorted, hi.made_lt, hi.perm, hi.live_kept, hi.sig,
      hi.lastTake_taken, hi.sinceTake, hi.handed, hi.waker_handed, hi.inFlight_handed, hi.latch,
      hi.fresh⟩
  · intro tr m pc e m' b _ hi he
    exact hi.timer he

end QubitLock
