import QubitLock.Lock.Program

set_option relaxedAutoImplicit false
set_option autoImplicit false

/-!
# Exclusion and isolation

The activities whose program counter has a guard are exactly the holders of the lock. From this
follow the exclusion of writers, and the isolation of whole critical sections: while an activity owns
its guard nobody else writes, and while it owns a shared one nobody writes at all. A closure takes two
steps, so it is the exclusion of writers that lets it end on the value that it saw when it began.

## Main definitions

* `replay` — the value that the mutating closures of a trace lead to.

## Main results

* `mem_holders_iff` — the holders of the lock are the activities with a guard.
* `mem_waiting_iff` — the activities in the queue of the lock.
* `value_of_seen` — what a running closure has seen is the protected value.
* `value_eq_replay` — the protected value is the fold of the mutating closures.
* `sections_isolated` — the isolation of critical sections.
-/

namespace QubitLock.Lock

variable {σ ρ Tid : Type} [DecidableEq Tid]

/-- The labels of the runs of the activities. -/
abbrev Label (σ ρ Tid : Type) := Threads.Label Tid (Did σ ρ) (Choice σ ρ) Empty

/-- The runs of the activities on a new lock around `v₀`. -/
abbrev Run (b : Backend) (v₀ : σ) (tr : List (Label σ ρ Tid))
    (c : Threads.Conf (Mem σ Tid) Tid (Pc σ ρ)) : Prop :=
  (threads b σ ρ Tid).Run (start σ ρ Tid v₀) tr c

variable {b : Backend} {v₀ : σ} {tr : List (Label σ ρ Tid)}
  {c : Threads.Conf (Mem σ Tid) Tid (Pc σ ρ)}

/-- **The invariant rule for locks**: one obligation for a report and one for a choice. -/
theorem Run.induct {I : List (Label σ ρ Tid) → Mem σ Tid → (Tid → Pc σ ρ) → Prop}
    (h₀ : I [] (.new v₀) fun _ => .idle)
    (hfire : ∀ {tr m pc t o d p}, Run b v₀ tr ⟨m, pc⟩ → I tr m pc →
      fire b m t o (pc t) = some (d, p) →
      I (.did t d :: tr) (effect b m t d) (Function.update pc t p))
    (hjump : ∀ {tr m pc t x p}, Run b v₀ tr ⟨m, pc⟩ → I tr m pc → jump b (pc t) x = some p →
      I (.chose t x :: tr) m (Function.update pc t p))
    (h : Run b v₀ tr c) : I tr c.mem c.pc :=
  Threads.Run.rule _ h₀ hfire hjump (fun {_ _ _ a} _ _ _ => a.elim) h

/-- **The rule for what happened since a label**: one obligation for the label, one for a later report
and one for a later choice. -/
theorem Run.induct_since {I : List (Label σ ρ Tid) → Mem σ Tid → (Tid → Pc σ ρ) → Prop}
    {l : Label σ ρ Tid} {later past : List (Label σ ρ Tid)}
    (hbase : ∀ {m pc}, Run b v₀ (l :: past) ⟨m, pc⟩ → I [] m pc)
    (hfire : ∀ {later m pc t o d p}, Run b v₀ (later ++ l :: past) ⟨m, pc⟩ → I later m pc →
      fire b m t o (pc t) = some (d, p) →
      I (.did t d :: later) (effect b m t d) (Function.update pc t p))
    (hjump : ∀ {later m pc t x p}, Run b v₀ (later ++ l :: past) ⟨m, pc⟩ → I later m pc →
      jump b (pc t) x = some p → I (.chose t x :: later) m (Function.update pc t p))
    (h : Run b v₀ (later ++ l :: past) c) : I later c.mem c.pc := by
  refine Lts.Run.invariant_since (I := fun later c => I later c.mem c.pc) hbase ?_ h
  intro later c e c' l' hr hi hs
  rcases Threads.step_eq_some _ hs with ⟨t, o, d, p, -, hf, rfl, rfl⟩ | ⟨t, x, p, -, hj, rfl, rfl⟩ |
    ⟨a, _, _, -, -, -, -⟩
  · exact hfire hr hi hf
  · exact hjump hr hi hj
  · exact a.elim

/-- The step of the latest report. -/
lemma Run.last_did {m' : Mem σ Tid} {pc' : Tid → Pc σ ρ} {t : Tid} {d : Did σ ρ}
    {past : List (Label σ ρ Tid)} (h : Run b v₀ (.did t d :: past) ⟨m', pc'⟩) :
    ∃ m pc o p, Run b v₀ past ⟨m, pc⟩ ∧ fire b m t o (pc t) = some (d, p) ∧
      m' = effect b m t d ∧ pc' = Function.update pc t p := by
  cases h with
  | cons e hr hs =>
    rcases Threads.step_eq_some _ hs with ⟨u, o, d', p, -, hf, hc, hl⟩ | ⟨_, _, _, -, -, -, hl⟩ |
      ⟨a, _, _, -, -, -, -⟩
    · cases hl
      cases hc
      exact ⟨_, _, o, p, hr, hf, rfl, rfl⟩
    · cases hl
    · exact a.elim

/-- The step of the latest choice. -/
lemma Run.last_chose {m : Mem σ Tid} {pc' : Tid → Pc σ ρ} {t : Tid} {x : Choice σ ρ}
    {past : List (Label σ ρ Tid)} (h : Run b v₀ (.chose t x :: past) ⟨m, pc'⟩) :
    ∃ pc p, Run b v₀ past ⟨m, pc⟩ ∧ jump b (pc t) x = some p ∧ pc' = Function.update pc t p := by
  cases h with
  | cons e hr hs =>
    rcases Threads.step_eq_some _ hs with ⟨_, _, _, _, -, -, -, hl⟩ | ⟨u, y, p, -, hj, hc, hl⟩ |
      ⟨a, _, _, -, -, -, -⟩
    · cases hl
    · cases hl
      cases hc
      exact ⟨_, p, hr, hj, rfl⟩
    · exact a.elim

/-- Every report of a run was made by a step from a reachable state. -/
lemma Run.exists_fire {t : Tid} {d : Did σ ρ} {past : List (Label σ ρ Tid)} (h : Run b v₀ tr c)
    (hs : .did t d :: past <:+ tr) :
    ∃ m pc o p, Run b v₀ past ⟨m, pc⟩ ∧ fire b m t o (pc t) = some (d, p) := by
  obtain ⟨s, e, ⟨m', pc'⟩, hr, hstep⟩ := Lts.Run.exists_step h hs
  obtain ⟨m, pc, o, p, hr, hf, -⟩ := Run.last_did (.cons e hr hstep)
  exact ⟨m, pc, o, p, hr, hf⟩

/-- Every choice of a run was made in a reachable state. -/
lemma Run.exists_jump {t : Tid} {x : Choice σ ρ} {past : List (Label σ ρ Tid)} (h : Run b v₀ tr c)
    (hs : .chose t x :: past <:+ tr) :
    ∃ m pc p, Run b v₀ past ⟨m, pc⟩ ∧ jump b (pc t) x = some p := by
  obtain ⟨s, e, ⟨m, pc'⟩, hr, hstep⟩ := Lts.Run.exists_step h hs
  obtain ⟨pc, p, hr, hj, -⟩ := Run.last_chose (.cons e hr hstep)
  exact ⟨m, pc, p, hr, hj⟩

/-! ## Holders -/

/-- The holders after a report: the reporting activity is a holder exactly if it now has a guard, and
all others are what they were. -/
lemma mem_holders_effect {m : Mem σ Tid} {t u : Tid} {p p' : Pc σ ρ} {d : Did σ ρ}
    {md : LockMode} (ha : Allows m t p p' d) (ht : ∀ x, (t, x) ∈ m.holders.list ↔ p.mode = some x) :
    (u, md) ∈ (effect b m t d).holders.list ↔
      (u = t ∧ p'.mode = some md) ∨ (u ≠ t ∧ (u, md) ∈ m.holders.list) := by
  -- a report that takes and leaves no guard keeps the holders
  have hkeep : p'.mode = p.mode → ((u, md) ∈ m.holders.list ↔
      (u = t ∧ p'.mode = some md) ∨ (u ≠ t ∧ (u, md) ∈ m.holders.list)) := by
    intro hmode
    by_cases hut : u = t
    · subst hut
      simp [ht, hmode]
    · simp [hut]
  cases d with
  | acquired x poisoned panicking =>
    obtain ⟨hp, hp', hsome, -⟩ := ha
    obtain ⟨h', hh'⟩ := Option.isSome_iff_exists.mp hsome
    simp only [effect, hh', Option.getD_some, (Holders.list_acquire hh').1, List.mem_cons,
      Prod.mk.injEq, hp', Option.some.injEq]
    by_cases hut : u = t
    · subst hut
      simp [ht, hp, eq_comm]
    · simp [hut]
  | released x panicking =>
    obtain ⟨-, hp'⟩ := ha
    simp [effect, Holders.mem_release, hp', and_comm]
  | refused | queued | yielded | left | unwound => exact hkeep (ha.2.trans ha.1.symm)
  | began | didRead | wrote => exact hkeep ha.2.1
  | returned out => exact hkeep ha

/-- **The holders of the lock are the activities with a guard**, each in the mode of its guard.

**Proof sketch.** Induction on the run. An activity gets its guard with the report that it acquired the
lock, loses it with the report that it released it, and no other report touches the holders. -/
theorem mem_holders_iff (h : Run b v₀ tr c) (t : Tid) (md : LockMode) :
    (t, md) ∈ c.mem.holders.list ↔ (c.pc t).mode = some md := by
  revert t md
  refine Run.induct (I := fun _ m pc => ∀ t md, (t, md) ∈ m.holders.list ↔ (pc t).mode = some md)
    ?_ ?_ ?_ h
  · intro t md
    simp [Mem.new, Pc.mode]
  · intro tr m pc t o d p hr hi hf u md
    rw [mem_holders_effect (fire_allows hf) (hi t)]
    by_cases hut : u = t
    · subst hut
      simp
    · simp [hut, hi]
  · intro tr m pc t x p hr hi hj u md
    by_cases hut : u = t
    · subst hut
      rw [Function.update_self, (kept_of_jump hj).1, hi]
    · rw [Function.update_of_ne hut, hi]

/-- **Mutual exclusion**: beside an activity that owns an exclusive guard nobody owns a guard. -/
lemma exclusive_alone (h : Run b v₀ tr c) {t u : Tid} {md : LockMode}
    (ht : (c.pc t).mode = some .exclusive) (hu : (c.pc u).mode = some md) : u = t :=
  Holders.exclusive_alone ((mem_holders_iff h t _).mpr ht) ((mem_holders_iff h u _).mpr hu)

/-! ## The queue -/

/-- The queue after a report. -/
lemma mem_waiting_effect {m : Mem σ Tid} {t u : Tid} {d : Did σ ρ} :
    u ∈ (effect b m t d).waiting ↔ match d with
      | .queued => u = t ∨ u ∈ m.waiting
      | .acquired _ _ _ | .left => u ≠ t ∧ u ∈ m.waiting
      | _ => u ∈ m.waiting := by
  cases d <;> simp [effect, and_comm]

/-- **The activities in the queue of the lock** are those that were not admitted and that wait.

**Proof sketch.** Induction on the run. An activity joins the queue with the report that it was queued,
and leaves it with its acquisition or with the drop of its future. -/
theorem mem_waiting_iff (h : Run b v₀ tr c) (t : Tid) :
    t ∈ c.mem.waiting ↔ (c.pc t).waits = true := by
  revert t
  refine Run.induct (I := fun _ m pc => ∀ t, t ∈ m.waiting ↔ (pc t).waits = true) ?_ ?_ ?_ h
  · intro t
    simp [Mem.new, Pc.waits]
  · intro tr m pc t o d p hr hi hf u
    rw [mem_waiting_effect]
    by_cases hut : u = t
    · subst hut
      rw [Function.update_self, waits_of_fire hf]
      cases d <;> simp [hi]
    · rw [Function.update_of_ne hut, ← hi u]
      cases d <;> simp [hut]
  · intro tr m pc t x p hr hi hj u
    by_cases hut : u = t
    · subst hut
      rw [Function.update_self, (kept_of_jump hj).2.1, hi]
    · rw [Function.update_of_ne hut, hi]

/-- Another activity is in the queue. -/
lemma contended_iff_waits (h : Run b v₀ tr c) (t : Tid) :
    c.mem.contended t = true ↔ ∃ u, u ≠ t ∧ (c.pc u).waits = true := by
  simp only [contended_iff, mem_waiting_iff h]

/-! ## The protected value -/

/-- The value that the mutating closures of a trace lead to, in the order in which they ended. -/
def replay (v₀ : σ) : List (Label σ ρ Tid) → σ
  | [] => v₀
  | .did _ (.wrote f _) :: tr => (f (replay v₀ tr)).1
  | _ :: tr => replay v₀ tr

/-- The value after a report. -/
lemma effect_value (m : Mem σ Tid) (t : Tid) (d : Did σ ρ) :
    (effect b m t d).value = match d with
      | .wrote f v => (f v).1
      | _ => m.value := by
  cases d <;> rfl

omit [DecidableEq Tid] in
/-- A closure that has seen a value runs under a guard. -/
lemma mode_isSome_of_seen {p : Pc σ ρ} {v : σ} (h : p.seen = some v) :
    ∃ md, p.mode = some md := by
  cases p with
  | reading f w md => exact ⟨md, rfl⟩
  | writing f w => exact ⟨_, rfl⟩
  | _ => cases h

/-- A report of one activity leaves the value alone under the closure of another one. -/
lemma effect_value_of_seen {m : Mem σ Tid} {pc : Tid → Pc σ ρ} {t u : Tid} {o : World} {d : Did σ ρ}
    {p : Pc σ ρ} {v : σ} (h : Run b v₀ tr ⟨m, pc⟩) (hf : fire b m t o (pc t) = some (d, p))
    (hut : u ≠ t) (hv : (pc u).seen = some v) : (effect b m t d).value = m.value := by
  rw [effect_value]
  have hallows := fire_allows hf
  cases d with
  | wrote f w =>
    -- the writer would own an exclusive guard beside the one of `u`
    obtain ⟨md, hmd⟩ := mode_isSome_of_seen hv
    exact absurd (exclusive_alone h hallows.1 hmd) hut
  | _ => rfl

/-- **What a running closure has seen is the protected value**, as long as it runs.

**Proof sketch.** Induction on the run. A closure begins with the value that the memory has. While it
runs its activity owns a guard, so a report of another activity that changed the value would come from
the owner of an exclusive guard, beside which there is no other guard. -/
theorem value_of_seen (h : Run b v₀ tr c) {t : Tid} {v : σ} (ht : (c.pc t).seen = some v) :
    c.mem.value = v := by
  revert t v
  refine Run.induct (I := fun _ m pc => ∀ {t v}, (pc t).seen = some v → m.value = v) ?_ ?_ ?_ h
  · intro t v ht
    cases ht
  · intro tr m pc t o d p hr hi hf u v hu
    by_cases hut : u = t
    · subst hut
      rw [Function.update_self, seen_of_fire hf] at hu
      have hallows := fire_allows hf
      cases d with
      | began w =>
        cases hu
        exact hallows.2.2.symm
      | _ => cases hu
    · rw [Function.update_of_ne hut] at hu
      rw [effect_value_of_seen hr hf hut hu]
      exact hi hu
  · intro tr m pc t x p hr hi hj u v hu
    by_cases hut : u = t
    · subst hut
      rw [Function.update_self, (kept_of_jump hj).2.2] at hu
      cases hu
    · rw [Function.update_of_ne hut] at hu
      exact hi hu

/-- A closure begins and ends on the protected value. -/
lemma saw_of_fire {m : Mem σ Tid} {pc : Tid → Pc σ ρ} {t : Tid} {o : World} {p : Pc σ ρ} {d : Did σ ρ}
    {v : σ} (h : Run b v₀ tr ⟨m, pc⟩) (hf : fire b m t o (pc t) = some (d, p))
    (hv : d.saw = some v) : v = m.value := by
  have hallows := fire_allows hf
  cases d with
  | began w =>
    cases hv
    exact hallows.2.2
  | didRead f w | wrote f w =>
    cases hv
    rcases hallows.2.2 with hseen | hw
    · exact (value_of_seen h hseen).symm
    · exact hw
  | _ => cases hv

/-- **The protected value is the fold of the mutating closures** that ended so far.

**Proof sketch.** Induction on the run. A mutating closure ends on the value that it began with: it has
had the exclusive guard since then, so nobody else has written (`saw_of_fire`). -/
theorem value_eq_replay (h : Run b v₀ tr c) : c.mem.value = replay v₀ tr := by
  refine Run.induct (I := fun tr m _ => m.value = replay v₀ tr) rfl ?_ ?_ h
  · intro tr m pc t o d p hr hi hf
    rw [effect_value]
    cases d with
    | wrote f v =>
      obtain rfl : v = m.value := saw_of_fire hr hf rfl
      simp only [replay, hi]
    | _ => exact hi
  · intro tr m pc t x p hr hi hj
    exact hi

omit [DecidableEq Tid] in
/-- A stretch in which no mutating closure ran leads nowhere. -/
lemma replay_append_of_no_write {mid past : List (Label σ ρ Tid)}
    (h : ∀ u f v, .did u (.wrote f v) ∉ mid) : replay v₀ (mid ++ past) = replay v₀ past := by
  induction mid with
  | nil => rfl
  | cons l mid ih =>
    have ih := ih fun u f v hmem => h u f v (List.mem_cons_of_mem _ hmem)
    cases l with
    | did u d =>
      cases d with
      | wrote f v => exact absurd List.mem_cons_self (h u f v)
      | _ => exact ih
    | _ => exact ih

/-! ## Critical sections -/

/-- An activity that took the lock and did not release it since still has its guard.

**Proof sketch.** Induction on what happened since the acquisition. A thread with a guard acquires,
waits and unwinds nothing, and its other reports keep the guard. -/
lemma mode_of_not_released {t : Tid} {md : LockMode} {poisoned panicking : Bool}
    {mid past : List (Label σ ρ Tid)}
    (h : Run b v₀ (mid ++ .did t (.acquired md poisoned panicking) :: past) c)
    (hmid : ∀ x byPanic, .did t (.released x byPanic) ∉ mid) : (c.pc t).mode = some md := by
  revert hmid
  refine Run.induct_since (I := fun mid _ pc => (∀ x byPanic, .did t (.released x byPanic) ∉ mid) →
    (pc t).mode = some md) ?_ ?_ ?_ h
  · intro m' pc' hr _
    obtain ⟨m, pc, o, p, -, hf, rfl, rfl⟩ := hr.last_did
    rw [Function.update_self]
    exact (fire_allows hf).2.1
  · intro mid m pc u o d p hr hi hf hmid
    have hallows := fire_allows hf
    have hkept := hi fun x byPanic hmem => hmid x byPanic (List.mem_cons_of_mem _ hmem)
    by_cases hut : u = t
    · subst hut
      rw [Function.update_self]
      cases d with
      | acquired | refused | queued | yielded | left | unwound =>
        exact absurd (hallows.1.symm.trans hkept) (by simp)
      | released x y => exact absurd List.mem_cons_self (hmid x y)
      | began | didRead | wrote => exact hallows.2.1.trans hkept
      | returned out => exact hallows.trans hkept
    · rw [Function.update_of_ne (Ne.symm hut)]
      exact hkept
  · intro mid m pc u x p hr hi hj hmid
    have hkept := hi fun x byPanic hmem => hmid x byPanic (List.mem_cons_of_mem _ hmem)
    by_cases hut : u = t
    · subst hut
      rw [Function.update_self, (kept_of_jump hj).1, hkept]
    · rw [Function.update_of_ne (Ne.symm hut)]
      exact hkept

/-- What another activity, or the activity itself, may report while it owns its guard. -/
lemma report_within {t u : Tid} {md : LockMode} {poisoned panicking : Bool}
    {mid past : List (Label σ ρ Tid)} {d : Did σ ρ}
    (h : Run b v₀ (mid ++ .did t (.acquired md poisoned panicking) :: past) c)
    (hmid : ∀ x byPanic, .did t (.released x byPanic) ∉ mid) (hd : .did u d ∈ mid) :
    ∃ m p p', Allows m u p p' d ∧ (t, md) ∈ m.holders.list ∧
      (∀ x, (u, x) ∈ m.holders.list ↔ p.mode = some x) := by
  obtain ⟨new, old, rfl⟩ := List.append_of_mem hd
  have hs : .did u d :: (old ++ .did t (.acquired md poisoned panicking) :: past) <:+
      (new ++ .did u d :: old) ++ .did t (.acquired md poisoned panicking) :: past := by
    simp
  obtain ⟨m, pc, o, p, hr, hf⟩ := h.exists_fire hs
  have hmode := mode_of_not_released hr fun x byPanic hmem =>
    hmid x byPanic (List.mem_append_right _ (List.mem_cons_of_mem _ hmem))
  exact ⟨m, _, _, fire_allows hf, (mem_holders_iff hr t md).mpr hmode, mem_holders_iff hr u⟩

omit [DecidableEq Tid] in
/-- Whoever reports what a closure saw has a guard. -/
lemma mode_of_saw {m : Mem σ Tid} {t : Tid} {p p' : Pc σ ρ} {d : Did σ ρ} (ha : Allows m t p p' d)
    (hd : d.saw.isSome) : ∃ md, p.mode = some md := by
  cases d with
  | began | didRead => exact Option.isSome_iff_exists.mp ha.1
  | wrote => exact ⟨_, ha.1⟩
  | _ => cases hd

/-- **Critical sections are isolated.** From the moment an activity takes the lock until it releases
it, however often it uses its guard in between: every mutating closure that ends is its own, and none
does while its guard shares the lock, so that the value stays what it was; whoever else gets the lock
shares it; and while its guard is exclusive, every closure that begins or ends is its own.

**Proof sketch.** Every report of the section was made in a reachable state in which the activity was
a holder (`report_within`). A mutating closure needs an exclusive guard, beside which there is no
other holder; an acquisition needs modes that go together. -/
theorem sections_isolated {t : Tid} {md : LockMode} {poisoned panicking : Bool}
    {mid past : List (Label σ ρ Tid)}
    (h : Run b v₀ (mid ++ .did t (.acquired md poisoned panicking) :: past) c)
    (hmid : ∀ x byPanic, .did t (.released x byPanic) ∉ mid) :
    (∀ u f v, .did u (.wrote f v) ∈ mid → u = t ∧ md = .exclusive) ∧
    (md = .shared → c.mem.value = replay v₀ past) ∧
    (∀ u md' poisoned' panicking', .did u (.acquired md' poisoned' panicking') ∈ mid →
      u ≠ t ∧ md'.Compatible md) ∧
    ∀ u d, .did u d ∈ mid → d.saw.isSome = true → md = .exclusive → u = t := by
  have hwrite : ∀ u f v, .did u (.wrote f v) ∈ mid → u = t ∧ md = .exclusive := by
    intro u f v hmem
    obtain ⟨m, p, p', ⟨hp, -, -⟩, ht, hu⟩ := report_within h hmid hmem
    obtain rfl : t = u := Holders.exclusive_alone ((hu _).mpr hp) ht
    exact ⟨rfl, Option.some.inj (((hu md).mp ht).symm.trans hp)⟩
  refine ⟨hwrite, ?_, ?_, ?_⟩
  · rintro rfl
    have hnone : ∀ u f v, .did u (.wrote f v) ∉ mid := fun u f v hmem =>
      absurd (hwrite u f v hmem).2 (by simp)
    rw [value_eq_replay h, replay_append_of_no_write hnone]
    rfl
  · intro u md' poisoned' panicking' hmem
    obtain ⟨m, p, p', ⟨hp, -, hsome, -⟩, ht, hu⟩ := report_within h hmid hmem
    obtain ⟨h', hh'⟩ := Option.isSome_iff_exists.mp hsome
    refine ⟨?_, (Holders.list_acquire hh').2 _ ht⟩
    rintro rfl
    exact absurd (hp.symm.trans ((hu md).mp ht)) (by simp)
  · rintro u d hmem hsaw rfl
    obtain ⟨m, p, p', hallows, ht, hu⟩ := report_within h hmid hmem
    obtain ⟨x, hx⟩ := mode_of_saw hallows hsaw
    exact Holders.exclusive_alone ht ((hu x).mpr hx)

/-- A reader of a read-write lock owns its guard while a second one gets the lock, and reads the same
value as before. -/
theorem sections_isolated_shared :
    ∃ (mid past : List (Label ℕ ℕ Bool)) (c : Threads.Conf (Mem ℕ Bool) Bool (Pc ℕ ℕ)),
      Run .parkingLotRwLock 7 (mid ++ .did false (.acquired .shared false false) :: past) c ∧
      .did true (.acquired .shared false false) ∈ mid ∧
      .did false (.didRead (fun v => some v) 7) ∈ mid ∧ c.mem.value = 7 := by
  let mid : List (Label ℕ ℕ Bool) :=
    [.did false (.didRead (fun v => some v) 7), .chose false (.deref fun v => v),
      .did true (.acquired .shared false false), .chose true (.call .read),
      .did false (.returned .guard)]
  have hr : ∃ c, Run .parkingLotRwLock 7
      (mid ++ .did false (.acquired .shared false false) :: [.chose false (.call .read)]) c :=
    ⟨_, Lts.Run.nil.cons (.choose false (.call .read)) rfl |>.cons (.run false .quiet) rfl
      |>.cons (.run false .quiet) rfl |>.cons (.choose true (.call .read)) rfl
      |>.cons (.run true .quiet) rfl |>.cons (.choose false (.deref fun v => v)) rfl
      |>.cons (.run false .quiet) rfl⟩
  obtain ⟨c, hr⟩ := hr
  exact ⟨mid, _, c, hr, by simp [mid], by simp [mid], (sections_isolated hr (by simp [mid])).2.1 rfl⟩

end QubitLock.Lock
