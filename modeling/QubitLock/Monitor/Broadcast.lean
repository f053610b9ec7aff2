import QubitLock.Monitor.Ownership

set_option relaxedAutoImplicit false
set_option autoImplicit false

/-!
# Broadcast notification

The argument against lost wakeups, for any typed program over the primitives. A wait that finds
its predicate true registers in the same critical section, so that while its registration is in
the registry every later change of the value was made by a thread which has not sent its
`notify_all` yet.

Which changes matter is a parameter `hurts : σ → σ → Prop`: a change from `v` to `v'` that does
not hurt turns no true predicate of interest false.

## Main definitions

* `Owes` — the thread changed the value in its latest critical section and has not notified all
  since.
* `Disciplined` — no thread takes the state lock while it owes a notification.
* `Waits` — the program counters of a program that stand behind a blocking check.

## Main results

* `Waits.held` — a wait that holds the lock after a blocking check has a true predicate.
* `Waits.informed` — in a disciplined run, every registered wait has a true predicate or some
  thread owes a notification.
-/

namespace QubitLock

variable {σ ρ Pc Choice Tid : Type} [DecidableEq Tid]

/-! ## Owed notifications -/

/-- The report takes the state lock. -/
def Did.isLock : Did σ ρ → Bool
  | .locked => true
  | _ => false

/-- The report takes all waiters. -/
def Did.isTakeAll : Did σ ρ → Bool
  | .tookAll _ => true
  | _ => false

/-- The values before and after a write. -/
def Did.change : Did σ ρ → Option (σ × σ)
  | .wrote f v _ => some (v, (f v).1)
  | _ => none

/-- Thread `t` changed the value in its current or latest critical section and has not executed a
`take_all` since. -/
def Owes (hurts : σ → σ → Prop) : List (Program.Label σ ρ Choice Tid) → Tid → Prop
  | [], _ => False
  | .did u d :: tr, t =>
    if u = t then
      d.isLock = false ∧ d.isTakeAll = false ∧
        ((∃ c ∈ d.change, hurts c.1 c.2) ∨ Owes hurts tr t)
    else Owes hurts tr t
  | .chose _ _ :: tr, t => Owes hurts tr t
  | .ambient _ :: tr, t => Owes hurts tr t

instance decidableOwes (hurts : σ → σ → Prop) [∀ v v', Decidable (hurts v v')] :
    ∀ (tr : List (Program.Label σ ρ Choice Tid)) (t : Tid), Decidable (Owes hurts tr t)
  | [], _ => .isFalse id
  | .did u d :: tr, t =>
    have := decidableOwes hurts tr t
    inferInstanceAs (Decidable (if u = t then d.isLock = false ∧ d.isTakeAll = false ∧
      ((∃ c ∈ d.change, hurts c.1 c.2) ∨ Owes hurts tr t) else Owes hurts tr t))
  | .chose _ _ :: tr, t => decidableOwes hurts tr t
  | .ambient _ :: tr, t => decidableOwes hurts tr t

/-- A label that takes the state lock is reported by a thread that owes nothing. -/
def LocksClean (hurts : σ → σ → Prop) :
    Program.Label σ ρ Choice Tid → List (Program.Label σ ρ Choice Tid) → Prop
  | .did t d, past => d.isLock = true → ¬ Owes hurts past t
  | _, _ => True

instance (hurts : σ → σ → Prop) [∀ v v', Decidable (hurts v v')] :
    ∀ (l : Program.Label σ ρ Choice Tid) (past : List (Program.Label σ ρ Choice Tid)),
      Decidable (LocksClean hurts l past)
  | .did t d, past => inferInstanceAs (Decidable (d.isLock = true → ¬ Owes hurts past t))
  | .chose _ _, _ => .isTrue trivial
  | .ambient _, _ => .isTrue trivial

/-- No thread takes the state lock while it owes a notification: every critical section that
changes the value is followed by the same thread's `notify_all` before its next acquisition. -/
def Disciplined (hurts : σ → σ → Prop) (tr : List (Program.Label σ ρ Choice Tid)) : Prop :=
  Lts.Always (LocksClean hurts) tr

instance (hurts : σ → σ → Prop) [∀ v v', Decidable (hurts v v')]
    (tr : List (Program.Label σ ρ Choice Tid)) : Decidable (Disciplined hurts tr) :=
  Lts.decidableAlways _ tr

/-- A debt survives every report but a `take_all` of the thread and an acquisition by it. -/
lemma Owes.mono {hurts : σ → σ → Prop} {tr : List (Program.Label σ ρ Choice Tid)} {u t : Tid}
    {d : Did σ ρ} (h : Owes hurts tr t) (hall : ∀ gs, d ≠ .tookAll gs)
    (hlock : d = .locked → u ≠ t) : Owes hurts (.did u d :: tr) t := by
  by_cases hut : u = t
  · subst hut
    simp only [Owes, if_true]
    cases d with
    | locked => exact absurd rfl (hlock rfl)
    | tookAll gs => exact absurd rfl (hall gs)
    | _ => exact ⟨rfl, rfl, .inr h⟩
  · simpa only [Owes, hut, if_false] using h

/-- A harmful change is owed by the thread that made it. -/
lemma Owes.wrote {hurts : σ → σ → Prop} {tr : List (Program.Label σ ρ Choice Tid)} {t : Tid}
    {f : σ → σ × Option ρ} {v : σ} {r : Option ρ} (h : hurts v (f v).1) :
    Owes hurts (.did t (.wrote f v r) :: tr) t := by
  simp only [Owes, if_true]
  exact ⟨rfl, rfl, .inl ⟨_, rfl, h⟩⟩

/-- A report of a thread that owes a notification afterwards: it made a harmful change, or it owed the
notification before, and it neither took the lock nor all waiters. -/
lemma owes_did_self {hurts : σ → σ → Prop} {tr : List (Program.Label σ ρ Choice Tid)} {t : Tid}
    {d : Did σ ρ} (h : Owes hurts (.did t d :: tr) t) :
    d.isLock = false ∧ d.isTakeAll = false ∧
      ((∃ f v r, d = .wrote f v r ∧ hurts v (f v).1) ∨ Owes hurts tr t) := by
  simp only [Owes, if_true] at h
  refine ⟨h.1, h.2.1, h.2.2.imp_left ?_⟩
  rintro ⟨c, hc, hs⟩
  cases d with
  | wrote f v r =>
    obtain rfl : (v, (f v).1) = c := by simpa [Did.change] using hc
    exact ⟨f, v, r, rfl, hs⟩
  | _ => simp [Did.change] at hc

/-! ## Waits -/

/-- The program counters of a program that stand between a check which told a wait to block and
the end of the suspension that follows. -/
structure Waits (P : Program σ ρ Pc Choice) where
  /-- The closures of the wait. -/
  cond : Pc → Option (Condition σ ρ)
  /-- No thread starts there. -/
  idle : cond P.idle = none
  /-- A wait gets there by a check, and stays there without taking the lock and without writing. -/
  reports : ∀ {p d p' w}, (P.code p).Reports d p' → cond p' = some w →
    (cond p = some w ∧ d ≠ .locked ∧ ∀ f v r, d ≠ .wrote f v r) ∨
      ∃ n v, d = .checked v (some true) ∧ w.waiting n v = some true
  /-- No choice leads there. -/
  jump : ∀ {p x p' w}, P.jump p x = some p' → cond p' = some w → cond p = some w

section Held

variable {P : Program σ ρ Pc Choice} (T : P.Typed Tid) (W : Waits P)

omit [DecidableEq Tid] in
/-- A predicate is true at the check that made a wait block. -/
lemma Condition.Pure.eq_true {w : Condition σ ρ} {p : σ → Bool} (hp : w.Pure p) {n : ℕ} {v : σ}
    (h : w.waiting n v = some true) : p v = true := by
  rw [hp n v] at h
  exact Option.some.inj h

/-- A report that does not write keeps the value. -/
lemma value_of_not_wrote {m : Mem σ Tid} {t : Tid} {d : Did σ ρ}
    (h : ∀ f v r, d ≠ .wrote f v r) : (m.effect t d).value = m.value := by
  rw [m.effect_value]
  split
  · exact absurd rfl (h _ _ _)
  · rfl

/-- A thread that holds the state lock after a report other than an acquisition held it before. -/
lemma Program.Typed.Fires.holds {m : Mem σ Tid} {pc : Tid → Pc} {t : Tid} {d : Did σ ρ} {p : Pc}
    (hf : T.Fires m pc t d p) (hlock : d ≠ .locked) (h : (T.typ p).holds = true) :
    (T.typ (pc t)).holds = true := by
  rw [hf.step.2.holds, Res.after_holds] at h
  have hneeds := hf.step.1
  cases d with
  | locked => exact absurd rfl hlock
  | guardReturned => exact hneeds.1
  | unlocked | returned | unwound => cases h
  | _ => exact h

/-- **A wait that was told to block blocks rightly** while it holds the state lock: its predicate is
true on the protected value.

**Proof sketch.** Induction on the run. The check of the wait itself saw the predicate true, and while
its thread holds the state lock no other thread writes. -/
theorem Waits.held {s₀ : Setup σ} {tr : List (Program.Label σ ρ Choice Tid)}
    {c : Threads.Conf (Mem σ Tid) Tid Pc} (h : P.Run s₀ tr c) {t : Tid} {w : Condition σ ρ}
    {p : σ → Bool} (hw : W.cond (c.pc t) = some w) (hpure : w.Pure p)
    (hheld : (T.typ (c.pc t)).holds = true) : p c.mem.value = true := by
  revert t w p
  refine T.rule (I := fun _ m pc => ∀ {t w p}, W.cond (pc t) = some w → w.Pure p →
    (T.typ (pc t)).holds = true → p m.value = true) ?_ ?_ ?_ ?_ h
  · intro t w p hw
    rw [W.idle] at hw
    cases hw
  · intro tr m pc t d p' hr hi hf u w p hw hpure hheld
    by_cases hut : u = t
    · subst hut
      rw [Function.update_self] at hw hheld
      rcases W.reports hf.reports hw with ⟨hw, hlock, hwrite⟩ | ⟨n, v, rfl, hv⟩
      · rw [value_of_not_wrote hwrite]
        exact hi hw hpure (hf.holds T hlock hheld)
      · obtain rfl : v = m.value := hf.allows.2
        exact hpure.eq_true hv
    · rw [Function.update_of_ne hut] at hw hheld
      -- only the holder of the state lock writes
      have hwrite : ∀ f v r, d ≠ .wrote f v r := by
        rintro f v r rfl
        exact hut (hf.owned.lock.holds_inj hheld hf.step.1.1)
      rw [value_of_not_wrote hwrite]
      exact hi hw hpure hheld
  · intro tr m pc t x p' hr hi hj u w p hw hpure hheld
    by_cases hut : u = t
    · subst hut
      rw [Function.update_self] at hw hheld
      rw [T.jump_typ hj] at hheld
      exact hi (W.jump hj hw) hpure hheld
    · rw [Function.update_of_ne hut] at hw hheld
      exact hi hw hpure hheld
  · intro tr m pc e m' b hr hi he u w p hw hpure hheld
    rw [(Mem.timer_frame he).value]
    exact hi hw hpure hheld

end Held

section Informed

variable {P : Program σ ρ Pc Choice} (T : P.Typed Tid) (W : Waits P)

/-- The registration `g` of a wait with predicate `p` is informed: while it is in the registry, the
predicate is true or some thread owes a notification. -/
def Informed (hurts : σ → σ → Prop) (tr : List (Program.Label σ ρ Choice Tid)) (m : Mem σ Tid)
    (g : Registration) (p : σ → Bool) : Prop :=
  g ∈ m.registrations → p m.value = true ∨ ∃ u, Owes hurts tr u

variable {hurts : σ → σ → Prop}

/-- A report of the wait's own thread keeps it informed. -/
lemma Informed.did_self {tr : List (Program.Label σ ρ Choice Tid)} {m : Mem σ Tid} {pc : Tid → Pc}
    {t : Tid} {d : Did σ ρ} {p' : Pc} {p : σ → Bool} {g : Registration} (hf : T.Fires m pc t d p')
    (hi : (T.typ (pc t)).reg = some g → Informed hurts tr m g p)
    (hheld : (T.typ (pc t)).holds = true → p m.value = true) (hreg : (T.typ p').reg = some g)
    (hlock : d ≠ .locked) (hwrite : ∀ f v r, d ≠ .wrote f v r) :
    Informed hurts (.did t d :: tr) (m.effect t d) g p := by
  intro hg
  rw [value_of_not_wrote hwrite]
  by_cases hd : d = .registered (some g)
  · subst hd
    exact .inl (hheld hf.step.1.1)
  · -- the registration was there before
    have hold : (T.typ (pc t)).reg = some g := by
      rw [hf.step.2.reg, Res.after_reg] at hreg
      split at hreg
      · cases hreg
        exact absurd rfl hd
      all_goals first | exact hreg | cases hreg
    rcases hi hold (hf.owned.reg.mem_of_mem_effect hf.allows hold hg) with h | ⟨u, hu⟩
    · exact .inl h
    · refine .inr ⟨u, hu.mono ?_ fun h => absurd h hlock⟩
      rintro gs rfl
      simp at hg

/-- A report of another thread keeps a wait informed.

**Proof sketch.** A harmful write is owed from then on, and a debt is settled only by a `take_all`,
which leaves no registration. -/
lemma Informed.did_other {tr : List (Program.Label σ ρ Choice Tid)} {m : Mem σ Tid} {pc : Tid → Pc}
    {t u : Tid} {d : Did σ ρ} {p' : Pc} {p : σ → Bool} {g : Registration}
    (hf : T.Fires m pc t d p') (hp : ∀ v v', ¬ hurts v v' → p v = true → p v' = true)
    (hdisc : d = .locked → ¬ Owes hurts tr t) (hreg : (T.typ (pc u)).reg = some g)
    (hi : Informed hurts tr m g p) : Informed hurts (.did t d :: tr) (m.effect t d) g p := by
  intro hg
  have hall : ∀ gs, d ≠ .tookAll gs := by
    rintro gs rfl
    simp at hg
  rcases hi (hf.owned.reg.mem_of_mem_effect hf.allows hreg hg) with h | ⟨x, hx⟩
  · by_cases hw : ∃ f v r, d = .wrote f v r
    · obtain ⟨f, v, r, rfl⟩ := hw
      obtain rfl : v = m.value := hf.allows.2.1
      by_cases hh : hurts m.value (f m.value).1
      · exact .inr ⟨t, Owes.wrote hh⟩
      · exact .inl (hp _ _ hh h)
    · rw [value_of_not_wrote fun f v r hd => hw ⟨f, v, r, hd⟩]
      exact .inl h
  · refine .inr ⟨x, hx.mono hall ?_⟩
    rintro hl rfl
    exact hdisc hl hx

/-- **No lost wakeup.** In a disciplined run every wait with a pure predicate is informed.

**Proof sketch.** Induction on the run, with a case for the wait's own thread and one for every other
thread. From its check to its release of the lock the thread holds the lock, so the predicate stays
true (`Waits.held`); after that a harmful change leaves a debt, which only a `take_all` settles. -/
theorem Waits.informed {s₀ : Setup σ} {tr : List (Program.Label σ ρ Choice Tid)}
    {c : Threads.Conf (Mem σ Tid) Tid Pc} (h : P.Run s₀ tr c) (hdisc : Disciplined hurts tr)
    {t : Tid} {w : Condition σ ρ} {p : σ → Bool} {g : Registration}
    (hw : W.cond (c.pc t) = some w) (hpure : w.Pure p)
    (hp : ∀ v v', ¬ hurts v v' → p v = true → p v' = true) (hreg : (T.typ (c.pc t)).reg = some g) :
    Informed hurts tr c.mem g p := by
  revert hdisc t w p g
  refine T.rule (I := fun tr m pc => Disciplined hurts tr → ∀ {t w p g}, W.cond (pc t) = some w →
    w.Pure p → (∀ v v', ¬ hurts v v' → p v = true → p v' = true) →
    (T.typ (pc t)).reg = some g → Informed hurts tr m g p) ?_ ?_ ?_ ?_ h
  · intro _ t w p g hw
    rw [W.idle] at hw
    cases hw
  · intro tr m pc t d p' hr hi hf hdisc u w p g hw hpure hp hreg
    by_cases hut : u = t
    · subst hut
      rw [Function.update_self] at hw hreg
      rcases W.reports hf.reports hw with ⟨hw, hlock, hwrite⟩ | ⟨n, v, rfl, hv⟩
      · exact Informed.did_self T hf (hi hdisc.2 hw hpure hp) (W.held T hr hw hpure) hreg hlock
          hwrite
      · -- the check itself
        obtain rfl : v = m.value := hf.allows.2
        exact fun _ => .inl (hpure.eq_true hv)
    · rw [Function.update_of_ne hut] at hw hreg
      refine (hi hdisc.2 hw hpure hp hreg).did_other T hf hp ?_ hreg
      rintro rfl
      exact hdisc.1 rfl
  · intro tr m pc t x p' hr hi hj hdisc u w p g hw hpure hp hreg
    by_cases hut : u = t
    · subst hut
      rw [Function.update_self] at hw hreg
      rw [T.jump_typ hj] at hreg
      exact hi hdisc.2 (W.jump hj hw) hpure hp hreg
    · rw [Function.update_of_ne hut] at hw hreg
      exact hi hdisc.2 hw hpure hp hreg
  · intro tr m pc e m' b hr hi he hdisc u w p g hw hpure hp hreg hg
    have hfr := Mem.timer_frame he
    rw [hfr.value]
    refine hi hdisc.2 hw hpure hp hreg ?_
    simpa only [Mem.registrations, hfr.registry] using hg

end Informed

end QubitLock
