import QubitLock.Monitor.Ownership

set_option relaxedAutoImplicit false
set_option autoImplicit false

/-!
# Calls

A thread of a monitor program makes one call after the other. The trace of a run tells which call a
thread is in (`lastCall`) and what the thread did in it so far (`since`), and the program counter
of the thread lies in the code of that call (`Calls.At`). Statements about single operations are
stated over these two, in any interleaving.

## Main definitions

* `lastCall`, `since` — the latest call of a thread and its reports in this call, newest first.
* `reportsOf` — the reports of a thread in a stretch of a trace.
* `Calls` — which program counters belong to which call.

## Main results

* `Calls.located` — the program counter of a thread belongs to its latest call.
-/

namespace QubitLock

variable {σ ρ Pc Choice Tid Call : Type} [DecidableEq Tid]

/-- The latest call of a thread. -/
def lastCall (called : Choice → Option Call) :
    List (Program.Label σ ρ Choice Tid) → Tid → Option Call
  | [], _ => none
  | .did _ _ :: tr, t => lastCall called tr t
  | .chose u x :: tr, t => if u = t then (called x).or (lastCall called tr t) else lastCall called tr t
  | .ambient _ :: tr, t => lastCall called tr t

/-- The reports of a thread since its latest call, newest first. -/
def since (called : Choice → Option Call) :
    List (Program.Label σ ρ Choice Tid) → Tid → List (Did σ ρ)
  | [], _ => []
  | .did u d :: tr, t => if u = t then d :: since called tr t else since called tr t
  | .chose u x :: tr, t =>
    if u = t ∧ (called x).isSome then [] else since called tr t
  | .ambient _ :: tr, t => since called tr t

/-- The reports of a thread in a stretch of a trace. -/
def reportsOf (t : Tid) (tr : List (Program.Label σ ρ Choice Tid)) : List (Did σ ρ) :=
  tr.filterMap fun
    | .did u d => if u = t then some d else none
    | _ => none

section Labels

variable {called : Choice → Option Call} {tr : List (Program.Label σ ρ Choice Tid)} {t u : Tid}

@[simp] lemma lastCall_did {d : Did σ ρ} :
    lastCall called (.did u d :: tr) t = lastCall called tr t := rfl

lemma lastCall_chose_self {x : Choice} :
    lastCall called (.chose t x :: tr) t = (called x).or (lastCall called tr t) := by
  simp [lastCall]

lemma lastCall_chose_ne {x : Choice} (h : u ≠ t) :
    lastCall called (.chose u x :: tr) t = lastCall called tr t := by
  simp [lastCall, h]

@[simp] lemma since_did_self {d : Did σ ρ} :
    since called (.did t d :: tr) t = d :: since called tr t := by
  simp [since]

lemma since_did_ne {d : Did σ ρ} (h : u ≠ t) :
    since called (.did u d :: tr) t = since called tr t := by
  simp [since, h]

lemma since_chose_ne {x : Choice} (h : u ≠ t) :
    since called (.chose u x :: tr) t = since called tr t := by
  simp [since, h]

lemma since_chose_call {x : Choice} {o : Call} (hx : called x = some o) :
    since called (.chose t x :: tr) t = [] := by
  simp [since, hx]

lemma since_chose_none {x : Choice} (hx : called x = none) :
    since called (.chose t x :: tr) t = since called tr t := by
  simp [since, hx]

@[simp] lemma reportsOf_nil :
    reportsOf t ([] : List (Program.Label σ ρ Choice Tid)) = [] := rfl

@[simp] lemma reportsOf_did_self {d : Did σ ρ} :
    reportsOf t (.did t d :: tr) = d :: reportsOf t tr := by
  simp [reportsOf]

lemma reportsOf_did_ne {d : Did σ ρ} (h : u ≠ t) :
    reportsOf t (.did u d :: tr) = reportsOf t tr := by
  simp [reportsOf, h]

@[simp] lemma reportsOf_chose {x : Choice} :
    reportsOf t (.chose u x :: tr) = reportsOf t tr := rfl

@[simp] lemma reportsOf_ambient {b : TimerDid Tid} :
    reportsOf t (.ambient b :: tr) = reportsOf t tr := rfl

lemma reportsOf_append (tr tr' : List (Program.Label σ ρ Choice Tid)) :
    reportsOf t (tr ++ tr') = reportsOf t tr ++ reportsOf t tr' :=
  List.filterMap_append

/-- A trace splits at the latest call of a thread.

**Proof sketch.** Induction on the trace: the newest call of the thread is the split, and every newer
label of the thread is a report of that call or a choice that calls nothing. -/
lemma exists_split_of_lastCall {o : Call} (h : lastCall called tr t = some o) :
    ∃ later x before, tr = later ++ .chose t x :: before ∧ called x = some o ∧
      reportsOf t later = since called tr t := by
  induction tr with
  | nil => cases h
  | cons l tr ih =>
    cases l with
    | did u d =>
      obtain ⟨later, x, before, rfl, hx, hsince⟩ := ih h
      refine ⟨.did u d :: later, x, before, rfl, hx, ?_⟩
      by_cases hut : u = t
      · subst hut
        rw [reportsOf_did_self, since_did_self, hsince]
      · rw [reportsOf_did_ne hut, since_did_ne hut, hsince]
    | ambient b =>
      obtain ⟨later, x, before, rfl, hx, hsince⟩ := ih h
      exact ⟨.ambient b :: later, x, before, rfl, hx, hsince⟩
    | chose u y =>
      by_cases hut : u = t
      · subst hut
        rw [lastCall_chose_self] at h
        cases hy : called y with
        | some o' =>
          rw [hy] at h
          exact ⟨[], y, tr, rfl, hy.trans h, (since_chose_call hy).symm⟩
        | none =>
          rw [hy] at h
          obtain ⟨later, x, before, rfl, hx, hsince⟩ := ih h
          exact ⟨.chose u y :: later, x, before, rfl, hx, hsince.trans (since_chose_none hy).symm⟩
      · rw [lastCall_chose_ne hut] at h
        obtain ⟨later, x, before, rfl, hx, hsince⟩ := ih h
        exact ⟨.chose u y :: later, x, before, rfl, hx, hsince.trans (since_chose_ne hut).symm⟩

/-- The latest call of a thread is in the trace. -/
lemma chose_mem_of_lastCall {o : Call} (h : lastCall called tr t = some o) :
    ∃ x, called x = some o ∧ .chose t x ∈ tr := by
  obtain ⟨later, x, before, rfl, hx, -⟩ := exists_split_of_lastCall h
  exact ⟨x, hx, List.mem_append_right _ List.mem_cons_self⟩

end Labels

omit [DecidableEq Tid] in
/-- The calls of a program: which choices are calls, which program counters belong to a call, and
which to user code. -/
structure Calls (P : Program σ ρ Pc Choice) (Call : Type) where
  /-- The call that a choice makes. -/
  called : Choice → Option Call
  /-- The program counter belongs to the call. -/
  At : Call → Pc → Prop
  /-- The program counter belongs to user code. -/
  User : Pc → Prop
  idle : User P.idle
  reports : ∀ {p d p' o}, (P.code p).Reports d p' → At o p → At o p' ∨ User p'
  reports_user : ∀ {p d p'}, (P.code p).Reports d p' → User p → User p'
  jump_call : ∀ {p x p' o}, P.jump p x = some p' → called x = some o → At o p'
  jump_none : ∀ {p x p' o}, P.jump p x = some p' → called x = none → At o p → At o p'
  jump_user : ∀ {p x p'}, P.jump p x = some p' → called x = none → User p → User p'

namespace Calls

variable {P : Program σ ρ Pc Choice} (C : Calls P Call) (T : P.Typed Tid)

include T in
/-- **Every thread is in user code or in the code of its latest call.**

**Proof sketch.** Induction on the run. A call leads from user code into its own code, and primitives
and polls stay there until they lead back. -/
theorem located {s₀ : Setup σ} {tr : List (Program.Label σ ρ Choice Tid)}
    {c : Threads.Conf (Mem σ Tid) Tid Pc} (h : P.Run s₀ tr c) (t : Tid) :
    C.User (c.pc t) ∨ ∃ o, lastCall C.called tr t = some o ∧ C.At o (c.pc t) := by
  revert t
  refine T.rule (I := fun tr _ pc => ∀ t, C.User (pc t) ∨
    ∃ o, lastCall C.called tr t = some o ∧ C.At o (pc t)) ?_ ?_ ?_ ?_ h
  · exact fun _ => .inl C.idle
  · intro tr m pc t d p hr hi hf u
    by_cases hut : u = t
    · subst hut
      rw [Function.update_self, lastCall_did]
      rcases hi u with hu | ⟨o, ho, hat⟩
      · exact .inl (C.reports_user hf.reports hu)
      · rcases C.reports hf.reports hat with h | h
        · exact .inr ⟨o, ho, h⟩
        · exact .inl h
    · rw [Function.update_of_ne hut]
      exact hi u
  · intro tr m pc t x p hr hi hj u
    by_cases hut : u = t
    · subst hut
      rw [Function.update_self, lastCall_chose_self]
      cases hx : C.called x with
      | some o => exact .inr ⟨o, rfl, C.jump_call hj hx⟩
      | none =>
        rcases hi u with hu | ⟨o, ho, hat⟩
        · exact .inl (C.jump_user hj hx hu)
        · exact .inr ⟨o, ho, C.jump_none hj hx hat⟩
    · rw [Function.update_of_ne hut, lastCall_chose_ne (Ne.symm hut)]
      exact hi u
  · intro tr m pc e m' b hr hi he u
    exact hi u

end Calls

end QubitLock
