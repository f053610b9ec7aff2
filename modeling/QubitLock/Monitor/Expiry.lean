import Mathlib.Algebra.Order.Monoid.Prod
import QubitLock.Monitor.Calls

set_option relaxedAutoImplicit false
set_option autoImplicit false

/-!
# What a wait does after its Timer future completed

A timed wait polls its Timer future at several places of its loop, and the future may complete
between any two of its steps. What the wait can still do from a program counter on, once the future
is complete, is bounded by a credit: how often it polls the future, how often it releases the state
lock, and how often it evaluates its predicate. Every report is paid from the credit, and a poll of
a complete future is never pending, so the credit of the program counter at the completion bounds
everything up to the return.

## Main definitions

* `Did.dropsTimer` — the call returns and its Timer future is dropped.
* `cost`, `Did.price` — what the reports of a call cost; `Program.Credit` — the credit of the
  program counters.

## Main results

* `Program.Credit.covers` — a call stays within its credit after the completion.
* `Program.Credit.not_polled_after_ready` — no call polls a future that has reported its completion.
-/

namespace QubitLock

variable {σ ρ Pc Choice Tid : Type}

/-- The report ends its call, which drops the Timer future. -/
def Did.dropsTimer : Did σ ρ → Bool
  | .returned _ _ _ | .guardReturned _ _ _ | .unwound => true
  | _ => false

/-- The report polls the Timer future. -/
def Did.isPoll : Did σ ρ → Bool
  | .polled _ _ => true
  | _ => false

/-- The report releases the state lock inside its call. -/
def Did.isUnlock : Did σ ρ → Bool
  | .unlocked => true
  | _ => false

/-- The report evaluates a predicate. -/
def Did.isCheck : Did σ ρ → Bool
  | .checked _ _ => true
  | _ => false

/-- The report only looks: it evaluates a predicate or polls the Timer future. -/
def Did.isProbe (d : Did σ ρ) : Bool := d.isCheck || d.isPoll

/-- The polls of the Timer future, the releases of the state lock and the evaluations of the
predicate among the reports of a call. -/
def cost (ds : List (Did σ ρ)) : ℕ × ℕ × ℕ :=
  (ds.countP Did.isPoll, ds.countP Did.isUnlock, ds.countP Did.isCheck)

@[simp] lemma cost_nil : cost ([] : List (Did σ ρ)) = (0, 0, 0) := rfl

/-- The cost of a single report. -/
def Did.price : Did σ ρ → ℕ × ℕ × ℕ
  | .polled _ _ => (1, 0, 0)
  | .unlocked => (0, 1, 0)
  | .checked _ _ => (0, 0, 1)
  | _ => (0, 0, 0)

/-- The costs of a report and of the reports before it add up. -/
lemma cost_cons (d : Did σ ρ) (ds : List (Did σ ρ)) : cost (d :: ds) = d.price + cost ds := by
  cases d <;>
    simp [cost, List.countP_cons, Did.price, Did.isPoll, Did.isUnlock, Did.isCheck, Nat.add_comm]

/-- The Timer future of a thread's call completed, and the call has not returned since: it is
followed by the labels `later`. -/
structure CompletedBefore (later tr : List (Program.Label σ ρ Choice Tid)) (t : Tid) : Prop where
  split : ∃ deadline now r earlier, tr = later ++ .ambient (.completed t deadline now r) :: earlier
  open_ : ∀ d, .did t d ∈ later → d.dropsTimer = false

/-- What happened since a completion that lies before the newest label. -/
lemma CompletedBefore.tail {l : Program.Label σ ρ Choice Tid}
    {later tr : List (Program.Label σ ρ Choice Tid)} {t : Tid}
    (h : CompletedBefore later (l :: tr) t) :
    (later = [] ∧ ∃ deadline now r, l = .ambient (.completed t deadline now r)) ∨
      ∃ later', later = l :: later' ∧ CompletedBefore later' tr t := by
  obtain ⟨⟨deadline, now, r, earlier, heq⟩, hopen⟩ := h
  rcases List.cons_eq_append_iff.mp heq with ⟨rfl, htr⟩ | ⟨later', rfl, htr⟩
  · obtain ⟨rfl, -⟩ := List.cons.inj htr
    exact .inl ⟨rfl, deadline, now, r, rfl⟩
  · exact .inr ⟨later', rfl, ⟨deadline, now, r, earlier, htr⟩,
      fun d hd => hopen d (List.mem_cons_of_mem _ hd)⟩

/-- A completion stays before the labels that follow, unless the call returns. -/
lemma CompletedBefore.cons {l : Program.Label σ ρ Choice Tid}
    {later tr : List (Program.Label σ ρ Choice Tid)} {t : Tid} (h : CompletedBefore later tr t)
    (hl : ∀ d, l = .did t d → d.dropsTimer = false) : CompletedBefore (l :: later) (l :: tr) t := by
  obtain ⟨⟨deadline, now, r, earlier, rfl⟩, hopen⟩ := h
  refine ⟨⟨deadline, now, r, earlier, rfl⟩, fun d hd => ?_⟩
  rcases List.mem_cons.mp hd with heq | hd
  · exact hl d heq.symm
  · exact hopen d hd

/-- A completion stays before a stretch in which the call does not return. -/
lemma CompletedBefore.append {later tr : List (Program.Label σ ρ Choice Tid)} {t : Tid}
    (h : CompletedBefore later tr t) {mid : List (Program.Label σ ρ Choice Tid)}
    (hmid : ∀ d, .did t d ∈ mid → d.dropsTimer = false) :
    CompletedBefore (mid ++ later) (mid ++ tr) t := by
  induction mid with
  | nil => exact h
  | cons l mid ih =>
    refine (ih fun d hd => hmid d (List.mem_cons_of_mem _ hd)).cons ?_
    rintro d rfl
    exact hmid d List.mem_cons_self

/-- The credit of each program counter of a program, where a Timer future may be alive: what the
call may still cost if the future is complete. -/
structure Program.Credit (P : Program σ ρ Pc Choice) where
  /-- The credit, or `none` where no Timer future is alive. -/
  credit : Pc → Option (ℕ × ℕ × ℕ)
  /-- One poll, one release and two evaluations are enough everywhere. -/
  bound : ∀ {p b}, credit p = some b → b ≤ (1, 1, 2)
  /-- The creation of a Timer future gives a credit. -/
  made : ∀ {p deadline p'}, (P.code p).Reports (.timerMade deadline (.ok ())) p' →
    ∃ b, credit p' = some b
  /-- A call with a Timer future creates no second one. -/
  once : ∀ {p b deadline r p'}, credit p = some b →
    ¬ (P.code p).Reports (.timerMade deadline r) p'
  /-- Every report is paid from the credit, unless it is a pending poll. -/
  pays : ∀ {p b d p'}, credit p = some b → (P.code p).Reports d p' → d.dropsTimer = false →
    ∃ b', credit p' = some b' ∧ ((∀ w, d ≠ .polled w .pending) → d.price + b' ≤ b)
  /-- A choice costs nothing. -/
  jump : ∀ {p b x p'}, credit p = some b → P.jump p x = some p' →
    ∃ b', credit p' = some b' ∧ b' ≤ b

/-! ## The future of a thread -/

section Futures

variable [DecidableEq Tid] {m : Mem σ Tid} {t u : Tid} {d : Did σ ρ}

/-- A Timer future that is alive after a report was just created, or was alive before. -/
lemma future_of_effect {f : TimerFuture} (h : (m.effect t d).future t = some f) :
    (∃ deadline, d = .timerMade deadline (.ok ())) ∨
      d.dropsTimer = false ∧ ∃ f₀, m.future t = some f₀ ∧ f.result = f₀.result := by
  rw [m.effect_future] at h
  cases d with
  | timerMade deadline r =>
    cases r with
    | ok _ => exact .inl ⟨deadline, rfl⟩
    | error e => exact .inr ⟨rfl, f, h, rfl⟩
  | polled w r =>
    simp only [Function.update_self, Option.map_eq_some_iff] at h
    obtain ⟨f₀, hf₀, rfl⟩ := h
    exact .inr ⟨rfl, f₀, hf₀, TimerFuture.polled_result f₀ w⟩
  | returned | guardReturned | unwound => simp at h
  | _ => exact .inr ⟨rfl, f, h, rfl⟩

/-- A report that neither creates nor drops a Timer future keeps its result. -/
lemma future_effect {f : TimerFuture} (hf : m.future t = some f) (hdrop : d.dropsTimer = false)
    (hmade : ∀ deadline r, d ≠ .timerMade deadline r) :
    ∃ f', (m.effect t d).future t = some f' ∧ f'.result = f.result := by
  rw [m.effect_future]
  cases d with
  | timerMade deadline r => exact absurd rfl (hmade deadline r)
  | polled w r =>
    exact ⟨f.polled w, by simp [hf], TimerFuture.polled_result f w⟩
  | returned | guardReturned | unwound => cases hdrop
  | _ => exact ⟨f, hf, rfl⟩

/-- A Timer event keeps the futures but for the one that it completes. -/
lemma future_timer {m' : Mem σ Tid} {e : TimerEvent Tid} {b : TimerDid Tid}
    (he : m.timer e = some (m', b)) (t : Tid) :
    m'.future t = m.future t ∨
      ∃ f r, m.future t = some f ∧ m'.future t = some (f.complete r) ∧
        b = .completed t f.deadline m.clock r := by
  rcases Mem.timer_eq_some he with ⟨d, rfl, -⟩ | ⟨u, f, r, hf, -, rfl, rfl⟩ | ⟨a, -, rfl, -⟩ |
    ⟨a, -, rfl, -⟩
  · exact .inl rfl
  · by_cases htu : t = u
    · subst htu
      exact .inr ⟨f, r, hf, Function.update_self _ _ _, rfl⟩
    · exact .inl (Function.update_of_ne htu _ _)
  · exact .inl rfl
  · exact .inl rfl

/-- A complete future completed in its call.

**Proof sketch.** Induction on the run. A future is made without a result, so it got the result by a
completion; since then its thread has made no new future and dropped none. -/
lemma Program.Typed.exists_completed {P : Program σ ρ Pc Choice} (T : P.Typed Tid) {s₀ : Setup σ}
    {tr : List (Program.Label σ ρ Choice Tid)} {c : Threads.Conf (Mem σ Tid) Tid Pc}
    (h : P.Run s₀ tr c) {t : Tid} {f : TimerFuture} (hf : c.mem.future t = some f)
    (hresult : f.result ≠ none) : ∃ later, CompletedBefore later tr t := by
  revert t f
  refine T.rule (I := fun tr m _ => ∀ {t f}, m.future t = some f → f.result ≠ none →
    ∃ later, CompletedBefore later tr t) ?_ ?_ ?_ ?_ h
  · intro t f hf
    cases hf
  · intro tr m pc t d p hr hi hfire u f hf hresult
    by_cases hut : u = t
    · subst hut
      rcases future_of_effect hf with ⟨deadline, rfl⟩ | ⟨hdrop, f₀, hf₀, heq⟩
      · obtain rfl : TimerFuture.at_ deadline = f := by
          simpa [Mem.effect] using hf
        exact absurd rfl hresult
      · obtain ⟨later, hc⟩ := hi hf₀ (heq ▸ hresult)
        refine ⟨_, hc.cons ?_⟩
        rintro d' heq
        cases heq
        exact hdrop
    · rw [Mem.effect_future_ne hut] at hf
      obtain ⟨later, hc⟩ := hi hf hresult
      refine ⟨_, hc.cons ?_⟩
      rintro d' heq
      cases heq
      exact absurd rfl hut
  · intro tr m pc t x p hr hi hj u f hf hresult
    obtain ⟨later, hc⟩ := hi hf hresult
    exact ⟨_, hc.cons fun d heq => by cases heq⟩
  · intro tr m pc e m' b hr hi he u f hf hresult
    rcases future_timer he u with hsame | ⟨f₀, r, -, -, rfl⟩
    · obtain ⟨later, hc⟩ := hi (hsame ▸ hf) hresult
      exact ⟨_, hc.cons fun d heq => by cases heq⟩
    · exact ⟨[], ⟨⟨_, _, _, tr, rfl⟩, fun d hd => absurd hd List.not_mem_nil⟩⟩

end Futures

namespace Program.Credit

variable [DecidableEq Tid] {P : Program σ ρ Pc Choice} (C : P.Credit) (T : P.Typed Tid)
  {s₀ : Setup σ} {tr : List (Program.Label σ ρ Choice Tid)}
  {c : Threads.Conf (Mem σ Tid) Tid Pc}

include T in
/-- A thread whose Timer future is alive has a credit.

**Proof sketch.** Induction on the run. The request of a future gives a credit, a primitive that keeps
the future keeps one, and so do the choices of the thread. -/
lemma exists_credit (h : P.Run s₀ tr c) {t : Tid} {f : TimerFuture}
    (hf : c.mem.future t = some f) : ∃ b, C.credit (c.pc t) = some b := by
  revert t f
  refine T.rule (I := fun _ m pc => ∀ {t f}, m.future t = some f → ∃ b, C.credit (pc t) = some b)
    ?_ ?_ ?_ ?_ h
  · intro t f hf
    cases hf
  · intro tr m pc t d p hr hi hfire u f hf
    by_cases hut : u = t
    · subst hut
      rw [Function.update_self]
      rcases future_of_effect hf with ⟨deadline, rfl⟩ | ⟨hdrop, f₀, hf₀, -⟩
      · exact C.made hfire.reports
      · obtain ⟨b, hb⟩ := hi hf₀
        obtain ⟨b', hb', -⟩ := C.pays hb hfire.reports hdrop
        exact ⟨b', hb'⟩
    · rw [Function.update_of_ne hut]
      rw [Mem.effect_future_ne hut] at hf
      exact hi hf
  · intro tr m pc t x p hr hi hj u f hf
    by_cases hut : u = t
    · subst hut
      rw [Function.update_self]
      obtain ⟨b, hb⟩ := hi hf
      obtain ⟨b', hb', -⟩ := C.jump hb hj
      exact ⟨b', hb'⟩
    · rw [Function.update_of_ne hut]
      exact hi hf
  · intro tr m pc e m' b hr hi he u f hf
    rcases future_timer he u with hsame | ⟨f₀, r, hf₀, -, -⟩
    · exact hi (hsame ▸ hf)
    · exact hi hf₀

/-- The Timer future of a thread is complete, and the thread stays within its credit. -/
def Covers (m : Mem σ Tid) (pc : Tid → Pc) (t : Tid) (ds : List (Did σ ρ)) : Prop :=
  ∃ f r b, m.future t = some f ∧ f.result = some r ∧ C.credit (pc t) = some b ∧
    cost ds + b ≤ (1, 1, 2)

/-- A report of the thread itself is paid from its credit: a poll of its complete future is ready. -/
lemma Covers.did_self {C : P.Credit} {T : P.Typed Tid} {m : Mem σ Tid} {pc : Tid → Pc} {t : Tid}
    {d : Did σ ρ} {p : Pc} {ds : List (Did σ ρ)} (h : C.Covers m pc t ds)
    (hfire : T.Fires m pc t d p) (hdrop : d.dropsTimer = false) :
    C.Covers (m.effect t d) (Function.update pc t p) t (d :: ds) := by
  obtain ⟨f, r, b, hf, hresult, hb, hle⟩ := h
  have hmade : ∀ deadline r, d ≠ .timerMade deadline r := by
    rintro deadline r rfl
    exact C.once hb hfire.reports
  have hready : ∀ w, d ≠ .polled w .pending := by
    rintro w rfl
    obtain ⟨f', hf', hpoll⟩ := hfire.allows
    rw [hf] at hf'
    cases hf'
    rw [TimerFuture.poll_eq_pending.mp hpoll.symm] at hresult
    cases hresult
  obtain ⟨f', hf', hresult'⟩ := future_effect hf hdrop hmade
  obtain ⟨b', hb', hpay⟩ := C.pays hb hfire.reports hdrop
  refine ⟨f', r, b', hf', hresult'.trans hresult, by rwa [Function.update_self], ?_⟩
  calc cost (d :: ds) + b' = cost ds + (d.price + b') := by
        rw [cost_cons, add_comm d.price, add_assoc]
    _ ≤ cost ds + b := add_le_add_right (hpay hready) _
    _ ≤ (1, 1, 2) := hle

include T in
/-- **A call stays within its credit once its Timer future is complete**, whatever the other threads
and the Timer do.

**Proof sketch.** Induction over the run. At the completion the call has some credit, because its
future is alive; every later report of the call is paid from it. -/
theorem covers (h : P.Run s₀ tr c) {later : List (Program.Label σ ρ Choice Tid)} {t : Tid}
    (hc : CompletedBefore later tr t) : C.Covers c.mem c.pc t (reportsOf t later) := by
  revert t later
  refine T.rule (I := fun tr m pc => ∀ {later t}, CompletedBefore later tr t →
    C.Covers m pc t (reportsOf t later)) ?_ ?_ ?_ ?_ h
  · rintro later t ⟨⟨_, _, _, _, heq⟩, -⟩
    simp at heq
  · intro tr m pc t d p hr hi hfire later u hc
    rcases hc.tail with ⟨-, _, _, _, heq⟩ | ⟨later, rfl, hc'⟩
    · cases heq
    · by_cases hut : u = t
      · subst hut
        rw [reportsOf_did_self]
        exact (hi hc').did_self hfire (hc.open_ d List.mem_cons_self)
      · obtain ⟨f, r, b, hf, hresult, hb, hle⟩ := hi hc'
        rw [reportsOf_did_ne (Ne.symm hut)]
        refine ⟨f, r, b, ?_, hresult, ?_, hle⟩
        · rw [Mem.effect_future_ne hut, hf]
        · rw [Function.update_of_ne hut, hb]
  · intro tr m pc t x p hr hi hj later u hc
    rcases hc.tail with ⟨-, _, _, _, heq⟩ | ⟨later, rfl, hc'⟩
    · cases heq
    · obtain ⟨f, r, b, hf, hresult, hb, hle⟩ := hi hc'
      rw [reportsOf_chose]
      by_cases hut : u = t
      · subst hut
        obtain ⟨b', hb', hle'⟩ := C.jump hb hj
        refine ⟨f, r, b', hf, hresult, by rwa [Function.update_self], ?_⟩
        exact (add_le_add_right hle' _).trans hle
      · exact ⟨f, r, b, hf, hresult, by rwa [Function.update_of_ne hut], hle⟩
  · intro tr m pc e m' b hr hi he later u hc
    rcases hc.tail with ⟨rfl, deadline, now, r, heq⟩ | ⟨later, rfl, hc'⟩
    · -- the completion itself: the future is alive, so there is a credit
      cases heq
      rcases Mem.timer_eq_some he with ⟨_, -, hb⟩ | ⟨u', f, r', hf, -, rfl, hb⟩ | ⟨_, -, -, hb⟩ |
        ⟨_, -, -, hb⟩ <;> cases hb
      obtain ⟨b, hb⟩ := C.exists_credit T hr hf
      refine ⟨f.complete r, r, b, Function.update_self _ _ _, rfl, hb, ?_⟩
      rw [reportsOf_nil, cost_nil]
      exact (zero_add b).trans_le (C.bound hb)
    · obtain ⟨f, r, b', hf, hresult, hb, hle⟩ := hi hc'
      rw [reportsOf_ambient]
      rcases future_timer he u with hsame | ⟨f₀, r', -, hf', -⟩
      · exact ⟨f, r, b', hsame ▸ hf, hresult, hb, hle⟩
      · exact ⟨f₀.complete r', r', b', hf', rfl, hb, hle⟩

include C T in
/-- **No call polls its Timer future again after a poll reported the completion**: between a ready
poll and any later poll of the same thread, the call of the first one returned and dropped its
future.

**Proof sketch.** A ready poll was made after the completion. Without a return in between, both
polls would be paid from the credit that the call had at the completion, which is one poll. -/
theorem not_polled_after_ready (h : P.Run s₀ tr c) {t : Tid} {w w' : Waker}
    {r : Except TimeError Unit} {r' : Poll}
    {later mid older : List (Program.Label σ ρ Choice Tid)}
    (htr : tr = later ++ .did t (.polled w' r') :: (mid ++ .did t (.polled w (.ready r)) :: older)) :
    ∃ d, .did t d ∈ mid ∧ d.dropsTimer = true := by
  by_contra hno
  have hmid : ∀ d, .did t d ∈ mid → d.dropsTimer = false := by
    intro d hd
    by_contra hdrop
    exact hno ⟨d, hd, by simpa using hdrop⟩
  -- the ready poll finds a complete future
  have hsuffix : .did t (.polled w (.ready r)) :: older <:+ tr :=
    ⟨later ++ .did t (.polled w' r') :: mid, by simp [htr]⟩
  obtain ⟨m₁, pc₁, p₁, hr₁, hfire₁⟩ := T.fires_of_suffix h hsuffix
  obtain ⟨f, hf, hpoll⟩ := hfire₁.allows
  have hresult : f.result ≠ none := by simp [TimerFuture.poll_eq_ready.mp hpoll.symm]
  obtain ⟨since, hc₁⟩ := T.exists_completed hr₁ hf hresult
  have hready : CompletedBefore (.did t (.polled w (.ready r)) :: since)
      (.did t (.polled w (.ready r)) :: older) t := by
    refine hc₁.cons ?_
    rintro d heq
    cases heq
    rfl
  -- the later poll is paid from the same credit
  obtain ⟨m₂, pc₂, p₂, hr₂, hfire₂⟩ := T.fires_of_suffix h ⟨later, htr.symm⟩
  have hcovers := (C.covers T hr₂ (hready.append hmid)).did_self hfire₂ rfl
  obtain ⟨-, -, b, -, -, -, hle⟩ := hcovers
  have hpolls := (Prod.le_def.mp hle).1
  rw [reportsOf_append, reportsOf_did_self] at hpolls
  simp [cost, List.countP_cons, Did.isPoll] at hpolls
  omega

end Program.Credit

end QubitLock
