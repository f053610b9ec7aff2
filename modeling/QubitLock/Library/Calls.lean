import QubitLock.Library.Threads

set_option relaxedAutoImplicit false
set_option autoImplicit false

/-!
# The calls of threads

Some choices of a thread begin a call. The trace of a run tells which call a thread made last and
what it has reported in it so far, however the steps of other threads lie in between. A statement
about single calls is a relation between a call, its reports and the program counter of its thread;
the rule of this file derives it from the steps of that one thread.

## Main definitions

* `Threads.callOf` — the latest call of a thread, with its reports.

## Main results

* `Threads.Run.calls` — the rule for calls.
* `Threads.Run.exists_call` — a thread that is somewhere has made a call.
-/

namespace Threads

variable {M Tid Pc O D C A B K : Type} [DecidableEq Tid]

/-- The latest call of a thread and what it has reported since, newest report first. -/
def callOf (called : C → Option K) (t : Tid) : List (Label Tid D C B) → Option (K × List D)
  | [] => none
  | .did u d :: tr =>
    if u = t then (callOf called t tr).map fun k => (k.1, d :: k.2) else callOf called t tr
  | .chose u x :: tr =>
    if u = t then ((called x).map fun k => (k, [])).or (callOf called t tr) else callOf called t tr
  | .ambient _ :: tr => callOf called t tr

section Labels

variable {called : C → Option K} {tr : List (Label Tid D C B)} {t u : Tid}

lemma callOf_did_self {d : D} {k : K} {ds : List D} (h : callOf called t tr = some (k, ds)) :
    callOf called t (.did t d :: tr) = some (k, d :: ds) := by
  simp [callOf, h]

lemma callOf_did_ne {d : D} (h : u ≠ t) :
    callOf called t (.did u d :: tr) = callOf called t tr := by
  simp [callOf, h]

lemma callOf_chose_ne {x : C} (h : u ≠ t) :
    callOf called t (.chose u x :: tr) = callOf called t tr := by
  simp [callOf, h]

lemma callOf_chose_call {x : C} {k : K} (hx : called x = some k) :
    callOf called t (.chose t x :: tr) = some (k, []) := by
  simp [callOf, hx]

lemma callOf_chose_none {x : C} (hx : called x = none) :
    callOf called t (.chose t x :: tr) = callOf called t tr := by
  simp [callOf, hx]

end Labels

section Rules

variable {T : Threads M Tid Pc O D C A B} {init : Conf M Tid Pc} {called : C → Option K}
  {tr : List (Label Tid D C B)} {c : Conf M Tid Pc}

/-- **The rule for calls.** A relation between a call, its reports and the program counter of its
thread that holds when a call begins, and that the steps of its own thread keep, holds of the latest
call of every thread.

**Proof sketch.** Induction on the run. Only the steps of its own thread change the latest call of a
thread and its reports, and then the relation holds by the obligation for that step. -/
theorem Run.calls {V : K → List D → Pc → Prop}
    (hcall : ∀ {p x p' k}, T.jump p x = some p' → called x = some k → V k [] p')
    (hjump : ∀ {p x p' k ds}, T.jump p x = some p' → called x = none → V k ds p →
      V k ds p')
    (hfire : ∀ {tr m pc t o d p k ds}, T.Run init tr ⟨m, pc⟩ → T.fire m t o (pc t) = some (d, p) →
      V k ds (pc t) → V k (d :: ds) p)
    (h : T.Run init tr c) (t : Tid) {k : K} {ds : List D} (hk : callOf called t tr = some (k, ds)) :
    V k ds (c.pc t) := by
  revert t k ds
  refine Run.rule T (I := fun tr _ pc => ∀ t {k : K} {ds : List D},
    callOf called t tr = some (k, ds) → V k ds (pc t)) ?_ ?_ ?_ ?_ h
  · intro t k ds hk
    cases hk
  · intro tr m pc t o d p hr hi hf u k ds hk
    by_cases hut : u = t
    · subst hut
      rw [Function.update_self]
      simp only [callOf, if_pos, Option.map_eq_some_iff, Prod.mk.injEq] at hk
      obtain ⟨⟨k', ds'⟩, hk, rfl, rfl⟩ := hk
      exact hfire hr hf (hi u hk)
    · rw [callOf_did_ne (Ne.symm hut)] at hk
      rw [Function.update_of_ne hut]
      exact hi u hk
  · intro tr m pc t x p hr hi hj u k ds hk
    by_cases hut : u = t
    · subst hut
      rw [Function.update_self]
      cases hx : called x with
      | some k' =>
        rw [callOf_chose_call hx] at hk
        cases hk
        exact hcall hj hx
      | none =>
        rw [callOf_chose_none hx] at hk
        exact hjump hj hx (hi u hk)
    · rw [callOf_chose_ne (Ne.symm hut)] at hk
      rw [Function.update_of_ne hut]
      exact hi u hk
  · intro tr m pc a m' b hr hi ha u
    exact hi u

/-- A thread that has made no call is where it began, if it can leave that place only by a call. -/
theorem Run.exists_call {S : Pc → Prop} (h₀ : ∀ t, S (init.pc t))
    (hjump : ∀ {p x p'}, T.jump p x = some p' → S p → (called x).isSome)
    (hfire : ∀ {m t o p d p'}, T.fire m t o p = some (d, p') → ¬ S p)
    (h : T.Run init tr c) (t : Tid) :
    S (c.pc t) ∨ ∃ k ds, callOf called t tr = some (k, ds) := by
  revert t
  refine Run.rule T (I := fun tr _ pc => ∀ t, S (pc t) ∨
    ∃ k ds, callOf called t tr = some (k, ds)) ?_ ?_ ?_ ?_ h
  · exact fun t => .inl (h₀ t)
  · intro tr m pc t o d p hr hi hf u
    by_cases hut : u = t
    · subst hut
      obtain ⟨k, ds, hk⟩ := (hi u).resolve_left (hfire hf)
      exact .inr ⟨k, d :: ds, callOf_did_self hk⟩
    · rw [Function.update_of_ne hut, callOf_did_ne (Ne.symm hut)]
      exact hi u
  · intro tr m pc t x p hr hi hj u
    by_cases hut : u = t
    · subst hut
      cases hx : called x with
      | some k => exact .inr ⟨k, [], callOf_chose_call hx⟩
      | none =>
        rw [callOf_chose_none hx]
        refine .inr ((hi u).resolve_left fun hu => ?_)
        have := hjump hj hu
        rw [hx] at this
        cases this
    · rw [Function.update_of_ne hut, callOf_chose_ne (Ne.symm hut)]
      exact hi u
  · intro tr m pc a m' b hr hi ha u
    exact hi u

end Rules

end Threads
