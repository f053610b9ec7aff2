import QubitLock.Monitor.Broadcast
import QubitLock.Monitor.Calls
import QubitLock.Monitor.History

set_option relaxedAutoImplicit false
set_option autoImplicit false

/-!
# Permits and single-waiter notification

The protected value is a number of permits. Waits take one when there is one, and updates add one
and notify one waiter. A notification may reach a wait that is just timing out, or one that finds
the permit gone; the account below shows that no permit is stranded by this: while some wait is
registered, there are at most as many permits as increments that have not taken their waiter yet,
selected waits that have not looked at the value yet, and selections that were discarded.

A check and the action it enables are one step of the account, which ends with the action.

## Main definitions

* `pendingPuts` — the increments whose `notify_one` has not executed its `take_one`.
* `selected` — the waits that a `notify_one` took and that have neither completed a check nor
  returned since.
* `discarded` — the number of selected waits that returned before they completed a check.
* `Permits` — what a program must satisfy.

## Main results

* `Permits.bound` — the account.
-/

namespace QubitLock

variable {σ ρ Pc Choice Call Tid : Type}

/-! ## The account, read off the trace -/

/-- The registration that a `notify_one` takes. -/
def Did.takenOne : Did σ ρ → List Registration
  | .tookOne r => r.toList
  | _ => []

/-- The report completes the check of a wait, with the action if there is one, or returns. -/
def Did.settles : Did σ ρ → Bool
  | .checked _ (some true) | .wrote _ _ _ | .returned _ _ _ => true
  | _ => false

/-- The outcome that a report returns. -/
def Did.outcome : Did σ ρ → Option (Outcome ρ)
  | .returned out _ _ => some out
  | _ => none

variable [DecidableEq Tid]

/-- The latest registration of a thread, whether it was dropped or not. -/
def lastReg : List (Program.Label σ ρ Choice Tid) → Tid → Option Registration
  | [], _ => none
  | .did u d :: tr, t => if u = t then d.entered.or (lastReg tr t) else lastReg tr t
  | .chose _ _ :: tr, t => lastReg tr t
  | .ambient _ :: tr, t => lastReg tr t

/-- The waits that a `notify_one` took and that have neither completed a check nor returned
since. -/
def selected : List (Program.Label σ ρ Choice Tid) → List Registration
  | [] => []
  | .did t d :: tr =>
    d.takenOne ++
      if d.settles then (selected tr).filter fun g => lastReg tr t ≠ some g else selected tr
  | .chose _ _ :: tr => selected tr
  | .ambient _ :: tr => selected tr

/-- The number of selected waits that returned with a losing outcome before they completed a
check. -/
def discarded (loses : Outcome ρ → Bool) : List (Program.Label σ ρ Choice Tid) → ℕ
  | [] => 0
  | .did t d :: tr =>
    (if d.outcome.any loses = true ∧ ∃ g ∈ selected tr, lastReg tr t = some g then 1 else 0) +
      discarded loses tr
  | .chose _ _ :: tr => discarded loses tr
  | .ambient _ :: tr => discarded loses tr

/-- The threads of the increments whose `notify_one` has not executed its `take_one`. -/
def pendingPuts (called : Choice → Option Call) (isPut : Call → Bool) :
    List (Program.Label σ ρ Choice Tid) → List Tid
  | [] => []
  | .did t d :: tr =>
    match d with
    | .wrote _ _ _ =>
      if (lastCall called tr t).any isPut then t :: pendingPuts called isPut tr
      else pendingPuts called isPut tr
    | .tookOne _ => (pendingPuts called isPut tr).erase t
    | _ => pendingPuts called isPut tr
  | .chose _ _ :: tr => pendingPuts called isPut tr
  | .ambient _ :: tr => pendingPuts called isPut tr

section Traces

variable {tr : List (Program.Label σ ρ Choice Tid)} {t u : Tid} {g : Registration}

/-- The registration object of a thread is its latest registration. -/
lemma lastReg_of_live (h : liveReg tr t = some g) : lastReg tr t = some g := by
  induction tr with
  | nil => cases h
  | cons l tr ih =>
    cases l with
    | did u d =>
      simp only [liveReg, lastReg] at h ⊢
      split at h
      · rename_i hut
        simp only [hut, if_true]
        cases d with
        | registered r =>
          cases r with
          | none => exact ih h
          | some g' => exact h
        | unregistered => cases h
        | _ => exact ih h
      · rename_i hut
        simp only [hut, if_false]
        exact ih h
    | chose | ambient => exact ih h

/-- The latest registration of a thread was made by it. -/
lemma registered_of_lastReg (h : lastReg tr t = some g) : .did t (.registered (some g)) ∈ tr := by
  induction tr with
  | nil => cases h
  | cons l tr ih =>
    cases l with
    | did u d =>
      simp only [lastReg] at h
      split at h
      · rename_i hut
        subst hut
        cases d with
        | registered r =>
          cases r with
          | none => exact List.mem_cons_of_mem _ (ih h)
          | some g' =>
            cases h
            exact List.mem_cons_self
        | _ => exact List.mem_cons_of_mem _ (ih h)
      · exact List.mem_cons_of_mem _ (ih h)
    | chose | ambient => exact List.mem_cons_of_mem _ (ih h)

/-- Selected waits were taken. -/
lemma selected_sublist (tr : List (Program.Label σ ρ Choice Tid)) :
    (selected tr).Sublist (taken tr) := by
  induction tr with
  | nil => exact List.Sublist.refl _
  | cons l tr ih =>
    cases l with
    | did t d =>
      have hone : d.takenOne.Sublist d.taken := by
        cases d with
        | tookOne => exact List.Sublist.refl _
        | _ => exact List.nil_sublist _
      refine hone.append ?_
      split
      · exact List.filter_sublist.trans ih
      · exact ih
    | chose | ambient => exact ih

omit [DecidableEq Tid] in
/-- Settling a thread removes at most one selected wait. -/
lemma length_le_filter {gs : List Registration} (hn : gs.Nodup) (o : Option Registration) :
    gs.length ≤ (gs.filter fun g => o ≠ some g).length + 1 := by
  cases o with
  | none => simp
  | some g =>
    have heq : (gs.filter fun g' => some g ≠ some g') = gs.erase g := by
      rw [hn.erase_eq_filter]
      refine List.filter_congr fun g' _ => ?_
      by_cases hg : g' = g
      · simp [hg]
      · simp [hg, Ne.symm hg]
    rw [heq]
    by_cases hg : g ∈ gs
    · have := List.length_erase_add_one hg
      omega
    · rw [List.erase_of_not_mem hg]
      omega

omit [DecidableEq Tid] in
/-- Settling a thread that is not selected removes nothing. -/
lemma filter_of_not_selected {gs : List Registration} {o : Option Registration}
    (h : ∀ g ∈ gs, o ≠ some g) : (gs.filter fun g => o ≠ some g) = gs :=
  List.filter_eq_self.mpr fun g hg => by simpa using h g hg

end Traces

/-! ## Programs that pass permits on -/

/-- The closures of a wait for a permit: it waits while there is none and takes one. -/
def TakesPermit (w : Condition ℕ ρ) : Prop :=
  w.Pure (· == 0) ∧ ∀ v, (w.f v).1 = v - 1 ∧ (w.f v).2.isSome = true

/-- A check that settles nothing found a permit. -/
lemma TakesPermit.eq_false {w : Condition ℕ ρ} (hw : TakesPermit w) {n v : ℕ}
    (hset : (Did.checked v (w.waiting n v) : Did ℕ ρ).settles = false) :
    w.waiting n v = some false := by
  rcases hv : w.waiting n v with _ | _ | _
  · rw [hw.1 n v] at hv
    cases hv
  · rfl
  · rw [hv] at hset
    cases hset

/-- The closure of an update that adds a permit. -/
def AddsPermit (f : ℕ → ℕ × Option ρ) : Prop := ∀ v, (f v).1 = v + 1 ∧ (f v).2.isSome = true

/-- A program whose waits take permits and whose updates add one and notify one. The calls of
interest are `Good`; `Selectable` are the program counters at which the latest registration of the
thread may be selected and not settled. -/
structure Permits {P : Program ℕ ρ Pc Choice} (C : Calls P Call) (W : Waits P) (typ : Pc → Res) where
  Good : Call → Prop
  /-- The call is an increment. -/
  isPut : Call → Bool
  /-- The outcome gives up a wait without a further check. -/
  loses : Outcome ρ → Bool
  Selectable : Pc → Prop
  /-- A registered wait can be selected. -/
  reg : ∀ {p g}, (typ p).reg = some g → Selectable p
  /-- User code is not a wait, and neither checks, writes nor registers. -/
  user : ∀ {p}, C.User p → ¬ Selectable p
  user_reports : ∀ {p d p'}, (P.code p).Reports d p' → C.User p →
    d.settles = false ∧ d.isRegister = false
  /-- A selected wait goes on to a check without a new registration, or gives up. -/
  step : ∀ {p d p' o}, (P.code p).Reports d p' → C.At o p → Good o → Selectable p →
    d.entered = none ∧ (d.settles = false → Selectable p') ∧
      ∀ out, d.outcome = some out → loses out = true
  jump : ∀ {p x p'}, P.jump p x = some p' → Selectable p → Selectable p'
  /-- An update adds a permit, and the action of a wait takes one. -/
  wrote : ∀ {p f v r p' o}, (P.code p).Reports (.wrote f v r) p' → C.At o p → Good o →
    (isPut o = true ∧ (f v).1 = v + 1 ∧ ¬ Selectable p) ∨ (isPut o = false ∧ (f v).1 = v - 1)
  /-- A wait blocks when there is no permit. -/
  blocked : ∀ {p v p' o}, (P.code p).Reports (.checked v (some true)) p' → C.At o p → Good o → v = 0
  /-- Only a wait that was told to block registers. -/
  register : ∀ {p g p' o}, (P.code p).Reports (.registered g) p' → C.At o p → Good o →
    ∃ w, W.cond p = some w ∧ w.Pure (· == 0)

namespace Permits

variable {P : Program ℕ ρ Pc Choice} {C : Calls P Call} {W : Waits P} (T : P.Typed Tid)
  (Q : Permits C W T.typ)

/-- The account of permits. -/
structure Account (tr : List (Program.Label ℕ ρ Choice Tid)) (m : Mem ℕ Tid) (pc : Tid → Pc) :
    Prop where
  /-- A selected wait belongs to a thread that can still settle it. -/
  owner : ∀ g ∈ selected tr, ∃ t, lastReg tr t = some g ∧ Q.Selectable (pc t)
  bound : m.registrations ≠ [] →
    m.value ≤ (pendingPuts C.called Q.isPut tr).length + (selected tr).length +
      discarded Q.loses tr

/-- Every call of a trace is good. -/
def AllGood (tr : List (Program.Label ℕ ρ Choice Tid)) : Prop :=
  ∀ t x o, .chose t x ∈ tr → C.called x = some o → Q.Good o

variable {T Q} {s₀ : Setup ℕ} {tr : List (Program.Label ℕ ρ Choice Tid)} {m : Mem ℕ Tid}
  {pc : Tid → Pc} {t : Tid} {d : Did ℕ ρ} {p : Pc}

/-- A thread that is selected is at a program counter where it can be. -/
lemma Account.selectable (h : Q.Account T tr m pc) (hn : (made tr).Nodup) {g : Registration}
    (hg : g ∈ selected tr) (ht : lastReg tr t = some g) : Q.Selectable (pc t) := by
  obtain ⟨u, hu, hsel⟩ := h.owner g hg
  obtain rfl := registered_unique hn (registered_of_lastReg hu) (registered_of_lastReg ht)
  exact hsel

/-- A thread that is not in user code is in a good call. -/
lemma AllGood.located (hgood : Q.AllGood T tr) (hr : P.Run s₀ tr ⟨m, pc⟩) (hu : ¬ C.User (pc t)) :
    ∃ o, Q.Good o ∧ lastCall C.called tr t = some o ∧ C.At o (pc t) := by
  obtain ⟨o, ho, hat⟩ := (C.located T hr t).resolve_left hu
  obtain ⟨x, hx, hmem⟩ := chose_mem_of_lastCall ho
  exact ⟨o, hgood t x o hmem hx, ho, hat⟩

/-- A report keeps selected waits with threads that can still settle them.

**Proof sketch.** A wait that is taken is registered, and its thread can settle it. A step of such a
thread settles the wait or leads to a program counter where it still can. -/
lemma Account.owner_did (h : Q.Account T tr m pc) (hr : P.Run s₀ tr ⟨m, pc⟩)
    (hgood : Q.AllGood T tr) (hf : T.Fires m pc t d p) (g : Registration)
    (hg : g ∈ selected (.did t d :: tr)) :
    ∃ u, lastReg (.did t d :: tr) u = some g ∧ Q.Selectable (Function.update pc t p u) := by
  have hh := T.history hr
  have hother : ∀ u, u ≠ t → lastReg tr u = some g → Q.Selectable (pc u) →
      ∃ u, lastReg (.did t d :: tr) u = some g ∧ Q.Selectable (Function.update pc t p u) := by
    intro u hut hu hsel
    refine ⟨u, ?_, by rwa [Function.update_of_ne hut]⟩
    simpa only [lastReg, Ne.symm hut, if_false] using hu
  simp only [selected, List.mem_append] at hg
  rcases hg with hg | hg
  · -- the wait is taken now
    cases d with
    | tookOne r =>
      obtain rfl : r = some g := by simpa [Did.takenOne] using hg
      have hmem : g ∈ m.registrations := List.mem_of_mem_head? hf.allows.symm
      obtain ⟨u, hu⟩ := hf.owned.reg.live hmem
      refine hother u ?_ (lastReg_of_live ((hh.live u).trans hu)) (Q.reg hu)
      rintro rfl
      rw [hf.step.1.2.1] at hu
      cases hu
    | _ => simp [Did.takenOne] at hg
  · have hold : g ∈ selected tr ∧ (d.settles = true → lastReg tr t ≠ some g) := by
      split at hg
      · obtain ⟨hg, hne⟩ := List.mem_filter.mp hg
        exact ⟨hg, fun _ => by simpa using hne⟩
      · rename_i hset
        exact ⟨hg, fun h => absurd h hset⟩
    obtain ⟨u, hu, hsel⟩ := h.owner g hold.1
    by_cases hut : u = t
    · subst hut
      obtain ⟨o, hogood, -, hat⟩ := hgood.located hr (fun huser => Q.user huser hsel)
      obtain ⟨henter, hnext, -⟩ := Q.step hf.reports hat hogood hsel
      have hset : d.settles = false := by
        by_contra hset
        exact hold.2 (by simpa using hset) hu
      refine ⟨u, ?_, by rw [Function.update_self]; exact hnext hset⟩
      simpa [lastReg, henter] using hu
    · exact hother u hut hu hsel

/-- The permits that selected waits stand for, after a thread settles. -/
lemma Account.settle (hh : (taken tr).Nodup) :
    (selected tr).length ≤
      ((selected tr).filter fun g => lastReg tr t ≠ some g).length + 1 :=
  length_le_filter ((selected_sublist tr).nodup hh) _

/-- A selected wait that returns before its check gives up, and its permit is discarded. -/
lemma Account.selected_returned {out : Outcome ρ} {v now : ℕ} (h : Q.Account T tr m pc)
    (hr : P.Run s₀ tr ⟨m, pc⟩) (hgood : Q.AllGood T tr) (hf : T.Fires m pc t (.returned out v now) p) :
    (selected tr).length + discarded Q.loses tr ≤
      (selected (.did t (.returned out v now) :: tr)).length +
        discarded Q.loses (.did t (.returned out v now) :: tr) := by
  have hh := T.history hr
  have hlen := Account.settle (t := t) hh.taken_nodup
  by_cases hsel : ∃ g ∈ selected tr, lastReg tr t = some g
  · obtain ⟨g, hg, ht⟩ := hsel
    have hp := h.selectable hh.made_nodup hg ht
    obtain ⟨o, hogood, -, hat⟩ := hgood.located hr fun hu => Q.user hu hp
    have hlose := (Q.step hf.reports hat hogood hp).2.2 out rfl
    have hdisc : discarded Q.loses (.did t (.returned out v now) :: tr) =
        1 + discarded Q.loses tr := by
      rw [discarded, if_pos ⟨hlose, g, hg, ht⟩]
    rw [hdisc]
    simp only [selected, Did.settles, Did.takenOne, if_true, List.nil_append]
    omega
  · have hfilter : ((selected tr).filter fun g => lastReg tr t ≠ some g) = selected tr :=
      filter_of_not_selected fun g hg ht => hsel ⟨g, hg, ht⟩
    have hdisc : discarded Q.loses (.did t (.returned out v now) :: tr) =
        0 + discarded Q.loses tr := by
      rw [discarded, if_neg fun hc => hsel hc.2]
    rw [hdisc]
    simp only [selected, Did.settles, Did.takenOne, if_true, List.nil_append, hfilter]
    omega

/-- **A report keeps the account.**

**Proof sketch.** By the report. An increment adds a permit and is pending; its `take_one` makes a
selected wait of it, as some wait stays registered. A selected wait gives up its place when it takes a
permit, or when it returns an error and is discarded. A wait that is told to block, or that registers
after that, has seen that there is no permit, and then the bound is trivial. -/
lemma Account.bound_did (h : Q.Account T tr m pc) (hr : P.Run s₀ tr ⟨m, pc⟩)
    (hgood : Q.AllGood T tr) (hf : T.Fires m pc t d p)
    (hne : (m.effect t d).registrations ≠ []) :
    (m.effect t d).value ≤ (pendingPuts C.called Q.isPut (.did t d :: tr)).length +
      (selected (.did t d :: tr)).length + discarded Q.loses (.did t d :: tr) := by
  have hh := T.history hr
  have hlen := Account.settle (t := t) hh.taken_nodup
  have hin : d.settles = true ∨ d.isRegister = true →
      ∃ o, Q.Good o ∧ lastCall C.called tr t = some o ∧ C.At o (pc t) := by
    intro hd
    refine hgood.located hr fun hu => ?_
    have := Q.user_reports hf.reports hu
    simp_all
  have hold : d.entered = none → m.value ≤ (pendingPuts C.called Q.isPut tr).length +
      (selected tr).length + discarded Q.loses tr := fun hd =>
    h.bound (Mem.registrations_ne_nil_of_effect hf.owned.reg.wellFormed hf.allows hd hne)
  cases d with
  | registered r =>
    obtain ⟨o, hogood, -, hat⟩ := hin (.inr rfl)
    obtain ⟨w, hw, hpure⟩ := Q.register hf.reports hat hogood
    have hzero : m.value = 0 := by simpa using W.held T hr hw hpure hf.step.1.1
    rw [value_of_not_wrote (by simp), hzero]
    exact Nat.zero_le _
  | checked v a =>
    by_cases ha : a = some true
    · subst ha
      obtain ⟨o, hogood, -, hat⟩ := hin (.inl rfl)
      have hzero : m.value = 0 := hf.allows.2 ▸ Q.blocked hf.reports hat hogood
      rw [value_of_not_wrote (by simp), hzero]
      exact Nat.zero_le _
    · have hset : (Did.checked v a : Did ℕ ρ).settles = false := by
        rcases a with _ | _ | _ <;> first | rfl | exact absurd rfl ha
      have hb := hold rfl
      rw [value_of_not_wrote (by simp)]
      simpa [pendingPuts, selected, discarded, Did.takenOne, Did.outcome, hset] using hb
  | wrote f v r =>
    obtain ⟨o, hogood, ho, hat⟩ := hin (.inl rfl)
    have hb := hold rfl
    obtain rfl : v = m.value := hf.allows.2.1
    have hval : (m.effect t (.wrote f m.value r)).value = (f m.value).1 := rfl
    rw [hval]
    simp only [pendingPuts, selected, discarded, ho, Option.any_some, Did.settles, Did.takenOne,
      Did.outcome, Option.any_none, if_true, List.nil_append]
    rcases Q.wrote hf.reports hat hogood with ⟨hput, hv, hnsel⟩ | ⟨hput, hv⟩
    · -- an increment is no selected wait
      have hfilter : ((selected tr).filter fun g => lastReg tr t ≠ some g) = selected tr :=
        filter_of_not_selected fun g hg ht =>
          hnsel (h.selectable hh.made_nodup hg ht)
      rw [hfilter, hv]
      simp only [hput, if_true, List.length_cons, Bool.false_eq_true, false_and, if_false]
      omega
    · rw [hv]
      simp only [hput, Bool.false_eq_true, false_and, if_false]
      omega
  | returned out v now =>
    have hb := hold rfl
    have hselected := h.selected_returned hr hgood hf
    rw [value_of_not_wrote (by simp)]
    simp only [pendingPuts]
    omega
  | tookOne r =>
    have hb := hold rfl
    rw [value_of_not_wrote (by simp)]
    have hone : r.toList.length = 1 := by
      obtain rfl : r = m.registrations.head? := hf.allows
      rw [m.effect_registrations t _ (by simp)] at hne
      cases hl : m.registrations with
      | nil => simp [hl, Did.left] at hne
      | cons g gs => rfl
    have herase : (pendingPuts C.called Q.isPut tr).length ≤
        ((pendingPuts C.called Q.isPut tr).erase t).length + 1 := by
      rw [List.length_erase]
      split <;> omega
    simp only [pendingPuts, selected, discarded, Did.settles, Did.takenOne, Did.outcome,
      Option.any_none, Bool.false_eq_true, false_and, if_false, List.length_append, hone]
    omega
  | _ =>
    have hb := hold rfl
    rw [value_of_not_wrote (by simp)]
    simpa [pendingPuts, selected, discarded, Did.takenOne, Did.outcome, Did.settles] using hb

variable {c : Threads.Conf (Mem ℕ Tid) Tid Pc}

/-- **No permit is stranded.** In a run of good calls, while some wait is registered there are at
most as many permits as pending increments, selected waits and discarded selections.

**Proof sketch.** Induction on the run. The owner of a selection stays a wait that has yet to settle it
(`owner_did`), and a report keeps the bound (`bound_did`). -/
theorem account (h : P.Run s₀ tr c) (hgood : Q.AllGood T tr) : Q.Account T tr c.mem c.pc := by
  revert hgood
  refine T.rule (I := fun tr m pc => Q.AllGood T tr → Q.Account T tr m pc) ?_ ?_ ?_ ?_ h
  · intro _
    exact ⟨fun g hg => by simp [selected] at hg, fun hne => by simp [Mem.init, Mem.registrations] at hne⟩
  · intro tr m pc t d p hr hi hf hgood
    have hgood' : Q.AllGood T tr := fun t x o hmem => hgood t x o (List.mem_cons_of_mem _ hmem)
    exact ⟨(hi hgood').owner_did hr hgood' hf, (hi hgood').bound_did hr hgood' hf⟩
  · intro tr m pc t x p hr hi hj hgood
    have hold := hi fun t x o hmem => hgood t x o (List.mem_cons_of_mem _ hmem)
    refine ⟨fun g hg => ?_, hold.bound⟩
    obtain ⟨u, hu, hsel⟩ := hold.owner g hg
    refine ⟨u, hu, ?_⟩
    by_cases hut : u = t
    · subst hut
      rw [Function.update_self]
      exact Q.jump hj hsel
    · rwa [Function.update_of_ne hut]
  · intro tr m pc e m' b hr hi he hgood
    have hold := hi fun t x o hmem => hgood t x o (List.mem_cons_of_mem _ hmem)
    have hfr := Mem.timer_frame he
    refine ⟨hold.owner, fun hne => ?_⟩
    rw [hfr.value]
    refine hold.bound ?_
    simpa only [Mem.registrations, hfr.registry] using hne

end Permits

end QubitLock
