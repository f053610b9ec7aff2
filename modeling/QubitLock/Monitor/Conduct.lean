import QubitLock.Monitor.Broadcast
import QubitLock.Monitor.Calls

set_option relaxedAutoImplicit false
set_option autoImplicit false

/-!
# What a call has done

The reports of a call (`since`) are determined by the code of its own thread, whatever the other
threads do in between. This file connects them with the shared memory: the protected value is the
result of all writes, a thread that holds the state lock knows the value it saw last, nobody else
writes between two steps of a thread under the lock, and a Timer that never completes a future
before its deadline makes a completed poll a proof that the deadline has passed.

## Main definitions

* `commits`, `replay` — the mutating closures that ran, and their fold over a value.
* `seen` — the protected value as a call knows it while it holds the state lock.
* `Honest` — no Timer future completes with success before its deadline.
* `reached` — the deadlines that polls of a call reported as reached.

## Main results

* `Calls.conduct` — a property of calls that their own steps keep holds in every run.
* `Program.Typed.value_eq_replay`, `Program.Typed.value_eq_seen`, `Program.Typed.undisturbed`,
  `Program.Typed.held_since`, `Program.Typed.reached_le`.
-/

namespace QubitLock

variable {σ ρ Pc Choice Tid Call : Type}

/-! ## Properties of a single call -/

section Conduct

variable [DecidableEq Tid] {P : Program σ ρ Pc Choice} (C : Calls P Call) (T : P.Typed Tid)

include T in
/-- **The rule for single calls.** A property of the reports of a call and its program counter that
holds when the call begins, and that every primitive and every other choice of its thread keeps,
holds of every call in every run.

**Proof sketch.** Induction on the run, as for `located`: only the choices and the primitives of a
thread change its latest call and the reports since. -/
theorem Calls.conduct {V : Call → List (Did σ ρ) → Pc → Prop}
    (hcall : ∀ {p x p' o}, P.jump p x = some p' → C.called x = some o → V o [] p')
    (hnone : ∀ {p x p' o ds}, P.jump p x = some p' → C.called x = none → C.At o p → V o ds p →
      V o ds p')
    (hstep : ∀ {p d p' o ds}, (P.code p).Reports d p' → C.At o p → V o ds p → V o (d :: ds) p')
    {s₀ : Setup σ} {tr : List (Program.Label σ ρ Choice Tid)}
    {c : Threads.Conf (Mem σ Tid) Tid Pc} (h : P.Run s₀ tr c) (t : Tid) :
    C.User (c.pc t) ∨ ∃ o, lastCall C.called tr t = some o ∧ C.At o (c.pc t) ∧
      V o (since C.called tr t) (c.pc t) := by
  revert t
  refine T.rule (I := fun tr _ pc => ∀ t, C.User (pc t) ∨
    ∃ o, lastCall C.called tr t = some o ∧ C.At o (pc t) ∧ V o (since C.called tr t) (pc t))
    ?_ ?_ ?_ ?_ h
  · exact fun _ => .inl C.idle
  · intro tr m pc t d p hr hi hf u
    by_cases hut : u = t
    · subst hut
      rw [Function.update_self, lastCall_did, since_did_self]
      rcases hi u with hu | ⟨o, ho, hat, hv⟩
      · exact .inl (C.reports_user hf.reports hu)
      · rcases C.reports hf.reports hat with hat' | hu
        · exact .inr ⟨o, ho, hat', hstep hf.reports hat hv⟩
        · exact .inl hu
    · rw [Function.update_of_ne hut, lastCall_did, since_did_ne (Ne.symm hut)]
      exact hi u
  · intro tr m pc t x p hr hi hj u
    by_cases hut : u = t
    · subst hut
      rw [Function.update_self, lastCall_chose_self]
      cases hx : C.called x with
      | some o =>
        rw [since_chose_call hx]
        exact .inr ⟨o, rfl, C.jump_call hj hx, hcall hj hx⟩
      | none =>
        rw [since_chose_none hx]
        rcases hi u with hu | ⟨o, ho, hat, hv⟩
        · exact .inl (C.jump_user hj hx hu)
        · exact .inr ⟨o, ho, C.jump_none hj hx hat, hnone hj hx hat hv⟩
    · rw [Function.update_of_ne hut, lastCall_chose_ne (Ne.symm hut), since_chose_ne (Ne.symm hut)]
      exact hi u
  · intro tr m pc e m' b hr hi he u
    exact hi u

end Conduct

/-! ## Commits -/

/-- The report runs a mutating closure. -/
def Did.isWrite : Did σ ρ → Bool
  | .wrote _ _ _ => true
  | _ => false

/-- The runs of mutating closures among the reports of a call. -/
def writes (ds : List (Did σ ρ)) : List (Did σ ρ) :=
  ds.filter Did.isWrite

@[simp] lemma writes_cons (d : Did σ ρ) (ds : List (Did σ ρ)) :
    writes (d :: ds) = if d.isWrite then d :: writes ds else writes ds := by
  simp [writes, List.filter_cons]

/-- The mutating closures that ran, newest first. -/
def commits : List (Program.Label σ ρ Choice Tid) → List (σ → σ × Option ρ)
  | [] => []
  | .did _ (.wrote f _ _) :: tr => f :: commits tr
  | _ :: tr => commits tr

/-- The result of the mutating closures of a trace, in the order in which they ran. -/
def replay (v : σ) (tr : List (Program.Label σ ρ Choice Tid)) : σ :=
  (commits tr).foldr (fun f v => (f v).1) v

/-- The commits of a trace are those of its parts. -/
lemma commits_append (tr tr' : List (Program.Label σ ρ Choice Tid)) :
    commits (tr ++ tr') = commits tr ++ commits tr' := by
  induction tr with
  | nil => rfl
  | cons l tr ih =>
    cases l with
    | did t d =>
      cases d with
      | wrote f v r => exact congrArg (f :: ·) ih
      | _ => exact ih
    | _ => exact ih

/-- A trace is replayed part by part. -/
lemma replay_append (v : σ) (tr tr' : List (Program.Label σ ρ Choice Tid)) :
    replay v (tr ++ tr') = (commits tr).foldr (fun f v => (f v).1) (replay v tr') := by
  rw [replay, commits_append, List.foldr_append]
  rfl

/-- A report that runs no mutating closure commits nothing. -/
lemma commits_did {t : Tid} {d : Did σ ρ} (hd : d.isWrite = false)
    (tr : List (Program.Label σ ρ Choice Tid)) : commits (.did t d :: tr) = commits tr := by
  cases d with
  | wrote => cases hd
  | _ => rfl

variable [DecidableEq Tid] {P : Program σ ρ Pc Choice} (T : P.Typed Tid) {s₀ : Setup σ}
  {tr : List (Program.Label σ ρ Choice Tid)} {c : Threads.Conf (Mem σ Tid) Tid Pc}

/-- A report that runs no mutating closure keeps the value. -/
lemma value_of_isWrite {m : Mem σ Tid} {t : Tid} {d : Did σ ρ} (hd : d.isWrite = false) :
    (m.effect t d).value = m.value := by
  refine value_of_not_wrote ?_
  rintro f v r rfl
  cases hd

include T in
/-- **The protected value is the initial value folded through the committed closures.**

**Proof sketch.** Induction on the run. A commit runs its closure on the value in memory, which is the
fold by the induction hypothesis, and nothing else changes the value. -/
theorem Program.Typed.value_eq_replay (h : P.Run s₀ tr c) : c.mem.value = replay s₀.value tr := by
  refine T.rule (I := fun tr m _ => m.value = replay s₀.value tr) rfl ?_ ?_ ?_ h
  · intro tr m pc t d p hr hi hf
    cases hd : d.isWrite with
    | false => rw [value_of_isWrite hd, replay, commits_did hd, hi, replay]
    | true =>
      cases d with
      | wrote f v r =>
        obtain rfl : v = m.value := hf.allows.2.1
        rw [show (m.effect t (.wrote f m.value r)).value = (f m.value).1 from rfl, hi]
        rfl
      | _ => cases hd
  · intro tr m pc t x p hr hi hj
    exact hi
  · intro tr m pc e m' b hr hi he
    rw [(Mem.timer_frame he).value]
    exact hi

/-- Only the holder of the state lock writes. -/
lemma Program.Typed.Fires.isWrite_of_ne {T : P.Typed Tid} {m : Mem σ Tid} {pc : Tid → Pc}
    {t u : Tid} {d : Did σ ρ} {p : Pc} (hf : T.Fires m pc t d p) (hut : u ≠ t)
    (hheld : (T.typ (pc u)).holds = true) : d.isWrite = false := by
  cases d with
  | wrote => exact absurd (hf.owned.lock.holds_inj hheld hf.step.1.1) hut
  | _ => rfl

/-! ## The value under the lock -/

/-- The protected value as a call knows it from its reports, newest first, while it holds the
state lock. -/
def seen : List (Did σ ρ) → Option σ
  | [] => none
  | d :: ds =>
    match d with
    | .checked v _ => some v
    | .wrote f v _ => some (f v).1
    | .locked => none
    | _ => seen ds

/-- **A call that holds the state lock knows the protected value.**

**Proof sketch.** Induction on the run. The latest check or write of the call saw the value that it left
in memory; since then the thread has held the lock, for an acquisition makes the call forget what it has
seen, and nobody else writes meanwhile. -/
theorem Program.Typed.value_eq_seen {called : Choice → Option Call} (h : P.Run s₀ tr c) {t : Tid}
    {v : σ} (hheld : (T.typ (c.pc t)).holds = true) (hv : seen (since called tr t) = some v) :
    c.mem.value = v := by
  revert t v
  refine T.rule (I := fun tr m pc => ∀ {t v}, (T.typ (pc t)).holds = true →
    seen (since called tr t) = some v → m.value = v) ?_ ?_ ?_ ?_ h
  · intro t v _ hv
    cases hv
  · intro tr m pc t d p hr hi hf u v hheld hv
    by_cases hut : u = t
    · subst hut
      rw [Function.update_self] at hheld
      rw [since_did_self] at hv
      have hold := hf.holds T (d := d)
      cases d with
      | locked => cases hv
      | checked v' a =>
        cases hv
        exact hf.allows.2.symm
      | wrote f v' r =>
        cases hv
        rfl
      | _ =>
        rw [value_of_isWrite rfl]
        exact hi (hold (by simp) hheld) hv
    · rw [Function.update_of_ne hut] at hheld
      rw [since_did_ne (Ne.symm hut)] at hv
      rw [value_of_isWrite (hf.isWrite_of_ne hut hheld)]
      exact hi hheld hv
  · intro tr m pc t x p hr hi hj u v hheld hv
    by_cases hut : u = t
    · subst hut
      rw [Function.update_self, T.jump_typ hj] at hheld
      cases hx : called x with
      | some o =>
        rw [since_chose_call hx] at hv
        cases hv
      | none =>
        rw [since_chose_none hx] at hv
        exact hi hheld hv
    · rw [Function.update_of_ne hut] at hheld
      rw [since_chose_ne (Ne.symm hut)] at hv
      exact hi hheld hv
  · intro tr m pc e m' b hr hi he u v hheld hv
    rw [(Mem.timer_frame he).value]
    exact hi hheld hv

include T in
/-- A closure runs on the value that its call knows.

**Proof sketch.** At the moment of the closure the value in memory is the one that the call knows
(`value_eq_seen`), and the closure runs on the value in memory. -/
theorem Program.Typed.wrote_eq_seen {called : Choice → Option Call} (h : P.Run s₀ tr c) {t : Tid}
    {f : σ → σ × Option ρ} {v v' : σ} {r : Option ρ} {ds : List (Did σ ρ)}
    (hs : .wrote f v r :: ds <:+ since called tr t) (hv : seen ds = some v') : v = v' := by
  revert t
  refine T.rule (I := fun tr _ _ => ∀ {t}, .wrote f v r :: ds <:+ since called tr t → v = v')
    ?_ ?_ ?_ ?_ h
  · intro t hs
    cases List.suffix_nil.mp hs
  · intro tr m pc t d p hr hi hf u hs
    by_cases hut : u = t
    · subst hut
      rw [since_did_self] at hs
      rcases List.suffix_cons_iff.mp hs with heq | hs
      · cases heq
        rw [hf.allows.2.1]
        exact T.value_eq_seen hr hf.step.1.1 hv
      · exact hi hs
    · rw [since_did_ne (Ne.symm hut)] at hs
      exact hi hs
  · intro tr m pc t x p hr hi hj u hs
    by_cases hut : u = t
    · subst hut
      cases hx : called x with
      | some o =>
        rw [since_chose_call hx] at hs
        cases List.suffix_nil.mp hs
      | none =>
        rw [since_chose_none hx] at hs
        exact hi hs
    · rw [since_chose_ne (Ne.symm hut)] at hs
      exact hi hs
  · intro tr m pc e m' b hr hi he u hs
    exact hi hs

/-- **Nobody commits between two steps of a thread that holds the state lock.** The latest report
of the thread is followed by no report of its own and by no commit at all, and by a choice of the
thread only where the program offers one under the lock.

**Proof sketch.** Induction on the run. A report of the thread starts afresh with nothing after it. A
step of another thread goes in front of what came after, and it commits nothing because the thread holds
the lock. -/
theorem Program.Typed.undisturbed {called : Choice → Option Call} (h : P.Run s₀ tr c) {t : Tid}
    {d : Did σ ρ} {ds : List (Did σ ρ)} (hheld : (T.typ (c.pc t)).holds = true)
    (hd : since called tr t = d :: ds) :
    ∃ later earlier, tr = later ++ .did t d :: earlier ∧ commits later = [] ∧
      (∀ d', .did t d' ∉ later) ∧
      ∀ x, .chose t x ∈ later → ∃ p p', (T.typ p).holds = true ∧ P.jump p x = some p' := by
  revert t d ds
  refine T.rule (I := fun tr m pc => ∀ {t d ds}, (T.typ (pc t)).holds = true →
    since called tr t = d :: ds → ∃ later earlier, tr = later ++ .did t d :: earlier ∧
      commits later = [] ∧ (∀ d', .did t d' ∉ later) ∧
      ∀ x, .chose t x ∈ later → ∃ p p', (T.typ p).holds = true ∧ P.jump p x = some p') ?_ ?_ ?_ ?_ h
  · intro t d ds _ hd
    cases hd
  · intro tr m pc t d p hr hi hf u d₀ ds hheld hd
    by_cases hut : u = t
    · subst hut
      rw [since_did_self] at hd
      cases hd
      exact ⟨[], tr, rfl, rfl, fun _ => List.not_mem_nil, fun _ hmem => absurd hmem List.not_mem_nil⟩
    · rw [Function.update_of_ne hut] at hheld
      rw [since_did_ne (Ne.symm hut)] at hd
      obtain ⟨later, earlier, rfl, hcommits, hown, hchose⟩ := hi hheld hd
      refine ⟨.did t d :: later, earlier, rfl, ?_, ?_, ?_⟩
      · rw [commits_did (hf.isWrite_of_ne hut hheld), hcommits]
      · intro d' hmem
        rcases List.mem_cons.mp hmem with heq | hmem
        · cases heq
          exact hut rfl
        · exact hown d' hmem
      · intro x hmem
        exact hchose x (by simpa using hmem)
  · intro tr m pc t x p hr hi hj u d ds hheld hd
    by_cases hut : u = t
    · subst hut
      rw [Function.update_self, T.jump_typ hj] at hheld
      cases hx : called x with
      | some o =>
        rw [since_chose_call hx] at hd
        cases hd
      | none =>
        rw [since_chose_none hx] at hd
        obtain ⟨later, earlier, rfl, hcommits, hown, hchose⟩ := hi hheld hd
        refine ⟨.chose u x :: later, earlier, rfl, hcommits, fun d' hmem => ?_, ?_⟩
        · exact hown d' (by simpa using hmem)
        · intro y hmem
          rcases List.mem_cons.mp hmem with heq | hmem
          · cases heq
            exact ⟨pc u, p, hheld, hj⟩
          · exact hchose y hmem
    · rw [Function.update_of_ne hut] at hheld
      rw [since_chose_ne (Ne.symm hut)] at hd
      obtain ⟨later, earlier, rfl, hcommits, hown, hchose⟩ := hi hheld hd
      refine ⟨.chose t x :: later, earlier, rfl, hcommits, fun d' hmem => ?_, fun y hmem => ?_⟩
      · exact hown d' (by simpa using hmem)
      · rcases List.mem_cons.mp hmem with heq | hmem
        · cases heq
          exact absurd rfl hut
        · exact hchose y hmem
  · intro tr m pc e m' b hr hi he u d ds hheld hd
    obtain ⟨later, earlier, rfl, hcommits, hown, hchose⟩ := hi hheld hd
    refine ⟨.ambient b :: later, earlier, rfl, hcommits, fun d' hmem => ?_, fun y hmem => ?_⟩
    · exact hown d' (by simpa using hmem)
    · exact hchose y (by simpa using hmem)

/-- The report neither releases the state lock nor writes. -/
def Did.keepsGuard : Did σ ρ → Bool
  | .unlocked | .wrote _ _ _ | .returned _ _ _ | .unwound => false
  | _ => true

/-- **A call on a guard that neither releases nor writes leaves its monitor alone.** Let a thread hold
the state lock when it makes the choice `x`. As long as it neither releases the lock nor writes, it
holds the lock, and nobody commits anything.

**Proof sketch.** Induction on what happened since the choice. The reports that release the lock or
write are excluded for the thread itself, and while it holds the lock no other thread commits. -/
theorem Program.Typed.held_since (h : P.Run s₀ tr c) {t : Tid} {x : Choice}
    (hx : ∀ {p p'}, P.jump p x = some p' → (T.typ p).holds = true)
    {later before : List (Program.Label σ ρ Choice Tid)} (htr : tr = later ++ .chose t x :: before)
    (hkept : ∀ d ∈ reportsOf t later, d.keepsGuard = true) :
    (T.typ (c.pc t)).holds = true ∧ commits later = [] := by
  revert later before
  refine T.rule (I := fun tr _ pc => ∀ {later before}, tr = later ++ .chose t x :: before →
    (∀ d ∈ reportsOf t later, d.keepsGuard = true) →
    (T.typ (pc t)).holds = true ∧ commits later = []) ?_ ?_ ?_ ?_ h
  · intro later before htr
    simp at htr
  · intro tr m pc u d p hr hi hf later before htr hkept
    rcases List.cons_eq_append_iff.mp htr with ⟨-, heq⟩ | ⟨later, rfl, rfl⟩
    · cases heq
    by_cases hut : t = u
    · subst hut
      rw [reportsOf_did_self, List.forall_mem_cons] at hkept
      obtain ⟨hheld, hcommits⟩ := hi rfl hkept.2
      have hwrite : d.isWrite = false := by
        cases d with
        | wrote => cases hkept.1
        | _ => rfl
      rw [Function.update_self, commits_did hwrite]
      refine ⟨?_, hcommits⟩
      rw [hf.step.2.holds, Res.after_holds]
      cases d with
      | unlocked | returned | unwound => cases hkept.1
      | locked | guardReturned => rfl
      | _ => exact hheld
    · rw [reportsOf_did_ne (Ne.symm hut)] at hkept
      obtain ⟨hheld, hcommits⟩ := hi rfl hkept
      rw [Function.update_of_ne hut, commits_did (hf.isWrite_of_ne hut hheld)]
      exact ⟨hheld, hcommits⟩
  · intro tr m pc u y p hr hi hj later before htr hkept
    rcases List.cons_eq_append_iff.mp htr with ⟨rfl, heq⟩ | ⟨later, rfl, rfl⟩
    · cases heq
      rw [Function.update_self, T.jump_typ hj]
      exact ⟨hx hj, rfl⟩
    · obtain ⟨hheld, hcommits⟩ := hi rfl hkept
      refine ⟨?_, hcommits⟩
      by_cases hut : t = u
      · subst hut
        rwa [Function.update_self, T.jump_typ hj]
      · rwa [Function.update_of_ne hut]
  · intro tr m pc e m' b hr hi he later before htr hkept
    rcases List.cons_eq_append_iff.mp htr with ⟨-, heq⟩ | ⟨later, rfl, rfl⟩
    · cases heq
    · obtain ⟨hheld, hcommits⟩ := hi rfl hkept
      exact ⟨hheld, hcommits⟩

/-! ## Registrations -/

/-- What the latest step of a trace returned, and where, if it was a return. -/
def lastReturn : List (Program.Label σ ρ Choice Tid) → Option (Tid × Outcome ρ × σ × ℕ)
  | .did t (.returned out v now) :: _ => some (t, out, v, now)
  | _ => none

omit [DecidableEq Tid] in
lemma lastReturn_eq_some {t : Tid} {out : Outcome ρ} {v : σ} {now : ℕ}
    (h : lastReturn tr = some (t, out, v, now)) :
    ∃ past, tr = .did t (.returned out v now) :: past := by
  unfold lastReturn at h
  split at h
  · cases h
    exact ⟨_, rfl⟩
  · cases h

/-! ## Deadlines -/

/-- The deadline of the latest Timer future of a call. -/
def armed : List (Did σ ρ) → Option ℕ
  | [] => none
  | d :: ds =>
    match d with
    | .timerMade deadline (.ok _) => some deadline
    | _ => armed ds

/-- The deadlines that the polls of a call reported as reached. -/
def reached : List (Did σ ρ) → List ℕ
  | [] => []
  | d :: ds =>
    match d with
    | .polled _ (.ready (.ok _)) => (armed ds).toList ++ reached ds
    | _ => reached ds

/-- No Timer future completes with success before its deadline. -/
def Honest (tr : List (Program.Label σ ρ Choice Tid)) : Prop :=
  ∀ t deadline now, .ambient (.completed t deadline now (.ok ())) ∈ tr → deadline ≤ now

/-- The label is no completion with success before the deadline. -/
def isHonest : Program.Label σ ρ Choice Tid → Bool
  | .ambient (.completed _ deadline now (.ok _)) => decide (deadline ≤ now)
  | _ => true

omit [DecidableEq Tid] in
lemma honest_iff {tr : List (Program.Label σ ρ Choice Tid)} : tr.all isHonest = true ↔ Honest tr := by
  rw [List.all_eq_true]
  constructor
  · intro h t deadline now hmem
    simpa [isHonest] using h _ hmem
  · intro h x hmem
    unfold isHonest
    split
    · simpa using h _ _ _ hmem
    · rfl

instance (tr : List (Program.Label σ ρ Choice Tid)) : Decidable (Honest tr) :=
  decidable_of_iff _ honest_iff

/-- The Timer future of a call: it has the deadline the call asked for, it has completed with
success only if this deadline has passed, and so has every deadline that a poll reported as
reached. -/
structure Deadlines (called : Choice → Option Call) (tr : List (Program.Label σ ρ Choice Tid))
    (m : Mem σ Tid) (t : Tid) : Prop where
  deadline : ∀ f deadline, m.future t = some f → armed (since called tr t) = some deadline →
    f.deadline = deadline
  result : ∀ f, m.future t = some f → f.result = some (.ok ()) → f.deadline ≤ m.clock
  reached : ∀ deadline ∈ reached (since called tr t), deadline ≤ m.clock

/-- A report of the thread itself keeps its deadlines.

**Proof sketch.** Only two reports touch the future of the thread. A new future has the deadline that it
was asked for and no result; a poll keeps the deadline and gives back the result that the Timer left. -/
lemma Deadlines.did_self {called : Choice → Option Call} {m : Mem σ Tid} {t : Tid} {d : Did σ ρ}
    (hi : Deadlines called tr m t) (ha : m.Allows t d) :
    Deadlines called (.did t d :: tr) (m.effect t d) t := by
  cases d with
  | timerMade deadline r =>
    cases r with
    | error e =>
      refine ⟨?_, hi.result, ?_⟩ <;> rw [since_did_self]
      · exact hi.deadline
      · exact hi.reached
    | ok a =>
      have hf' : (m.effect t (.timerMade deadline (.ok a) : Did σ ρ)).future t =
          some (.at_ deadline) := Function.update_self _ _ _
      refine ⟨fun f dl hf hdl => ?_, fun f hf hr => ?_, ?_⟩
      · rw [hf'] at hf
        rw [since_did_self] at hdl
        cases hf
        cases hdl
        rfl
      · rw [hf'] at hf
        cases hf
        cases hr
      · rw [since_did_self]
        exact hi.reached
  | polled w r =>
    obtain ⟨f₀, hf₀, rfl⟩ := ha
    have hf' : (m.effect t (.polled w f₀.poll : Did σ ρ)).future t = some (f₀.polled w) := by
      refine (Function.update_self _ _ _).trans ?_
      rw [hf₀]
      rfl
    have hdeadline : ∀ dl, armed (since called tr t) = some dl → f₀.deadline = dl :=
      fun dl hdl => hi.deadline f₀ dl hf₀ hdl
    refine ⟨fun f dl hf hdl => ?_, fun f hf hr => ?_, ?_⟩
    · rw [hf'] at hf
      cases hf
      rw [since_did_self] at hdl
      rw [TimerFuture.polled_deadline]
      exact hdeadline dl hdl
    · rw [hf'] at hf
      cases hf
      rw [TimerFuture.polled_result] at hr
      rw [TimerFuture.polled_deadline]
      exact hi.result f₀ hf₀ hr
    · rw [since_did_self]
      intro dl hdl
      rcases hpoll : f₀.poll with _ | _ | _ <;> rw [hpoll] at hdl
      · exact hi.reached dl hdl
      · exact hi.reached dl hdl
      · rcases List.mem_append.mp hdl with hdl | hdl
        · rw [← hdeadline dl (by simpa using hdl)]
          exact hi.result f₀ hf₀ (TimerFuture.poll_eq_ready.mp hpoll)
        · exact hi.reached dl hdl
  | returned | guardReturned | unwound =>
    have hnone : ∀ f, Function.update m.future t none t ≠ some f := by
      intro f
      rw [Function.update_self]
      simp
    refine ⟨fun f _ hf => absurd hf (hnone f), fun f hf => absurd hf (hnone f), ?_⟩
    rw [since_did_self]
    exact hi.reached
  | _ =>
    refine ⟨?_, hi.result, ?_⟩ <;> rw [since_did_self]
    · exact hi.deadline
    · exact hi.reached

/-- A report of another thread keeps the deadlines of a thread. -/
lemma Deadlines.did_other {called : Choice → Option Call} {m : Mem σ Tid} {t u : Tid} {d : Did σ ρ}
    (hi : Deadlines called tr m u) (hut : u ≠ t) :
    Deadlines called (.did t d :: tr) (m.effect t d) u := by
  refine ⟨?_, ?_, ?_⟩
  · rw [Mem.effect_future_ne hut, since_did_ne (Ne.symm hut)]
    exact hi.deadline
  · rw [Mem.effect_future_ne hut, m.effect_clock]
    exact hi.result
  · rw [m.effect_clock, since_did_ne (Ne.symm hut)]
    exact hi.reached

/-- An event of an honest Timer keeps the deadlines of every thread. -/
lemma Deadlines.timer {called : Choice → Option Call} {m m' : Mem σ Tid} {u : Tid}
    {e : TimerEvent Tid} {b : TimerDid Tid} (hi : Deadlines called tr m u)
    (he : m.timer e = some (m', b))
    (hb : ∀ t deadline now, b = .completed t deadline now (.ok ()) → deadline ≤ now) :
    Deadlines called (.ambient b :: tr) m' u := by
  have hclock := (Mem.timer_frame he).clock
  have hreached : ∀ deadline ∈ QubitLock.reached (since called tr u), deadline ≤ m'.clock :=
    fun dl hdl => le_trans (hi.reached dl hdl) hclock
  have hsame : m'.future u = m.future u → Deadlines called (.ambient b :: tr) m' u := by
    intro hfut
    refine ⟨?_, ?_, hreached⟩
    · rw [hfut]
      exact hi.deadline
    · rw [hfut]
      exact fun f hf hr => le_trans (hi.result f hf hr) hclock
  rcases Mem.timer_eq_some he with ⟨d, rfl, -⟩ | ⟨t, f, r, hf, -, rfl, rfl⟩ | ⟨a, -, rfl, -⟩ |
    ⟨a, -, rfl, -⟩
  · exact hsame rfl
  · by_cases hut : u = t
    · subst hut
      have hf' : (m.complete u f r).future u = some (f.complete r) := Function.update_self _ _ _
      refine ⟨fun g dl hg hdl => ?_, fun g hg hr => ?_, hreached⟩
      · rw [hf'] at hg
        cases hg
        exact hi.deadline f dl hf hdl
      · rw [hf'] at hg
        cases hg
        cases hr
        exact hb u f.deadline m.clock rfl
    · exact hsame (Function.update_of_ne hut _ _)
  · exact hsame rfl
  · exact hsame rfl

include T in
/-- **With an honest Timer a reached deadline has passed.**

**Proof sketch.** The invariant `Deadlines` adds two things: the future of a call has the deadline that
the call requested, and one that is complete has reached it. Both begin with the request, and the honest
Timer completes with success only after the deadline. -/
theorem Program.Typed.reached_le {called : Choice → Option Call} (h : P.Run s₀ tr c)
    (hh : Honest tr) (t : Tid) :
    ∀ deadline ∈ reached (since called tr t), deadline ≤ c.mem.clock := by
  suffices hdl : ∀ t, Deadlines called tr c.mem t from (hdl t).reached
  revert hh
  refine T.rule (I := fun tr m _ => Honest tr → ∀ t, Deadlines called tr m t) ?_ ?_ ?_ ?_ h
  · intro _ t
    refine ⟨fun f _ hf => ?_, fun f hf => ?_, fun dl hdl => ?_⟩
    · cases hf
    · cases hf
    · cases hdl
  · intro tr m pc t d p hr hi hf hh u
    have hold := hi fun t dl now hmem => hh t dl now (List.mem_cons_of_mem _ hmem)
    by_cases hut : u = t
    · subst hut
      exact (hold u).did_self hf.allows
    · exact (hold u).did_other hut
  · intro tr m pc t x p hr hi hj hh u
    have hold := hi fun t dl now hmem => hh t dl now (List.mem_cons_of_mem _ hmem)
    by_cases hut : u = t ∧ (called x).isSome
    · obtain ⟨rfl, hx⟩ := hut
      obtain ⟨o, ho⟩ := Option.isSome_iff_exists.mp hx
      refine ⟨fun f dl _ hdl => ?_, (hold u).result, fun dl hdl => ?_⟩
      · rw [since_chose_call ho] at hdl
        cases hdl
      · rw [since_chose_call ho] at hdl
        cases hdl
    · have hsince : since called (.chose t x :: tr) u = since called tr u := by
        simp only [since]
        exact if_neg fun hc => hut ⟨hc.1.symm, hc.2⟩
      exact ⟨by rw [hsince]; exact (hold u).deadline, (hold u).result,
        by rw [hsince]; exact (hold u).reached⟩
  · intro tr m pc e m' b hr hi he hh u
    have hold := hi fun t dl now hmem => hh t dl now (List.mem_cons_of_mem _ hmem)
    refine (hold u).timer he ?_
    rintro t dl now rfl
    exact hh t dl now List.mem_cons_self

end QubitLock
