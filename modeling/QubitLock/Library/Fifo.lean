import Mathlib.Data.List.Basic
import Mathlib.Data.List.Nodup
import Mathlib.Data.List.Perm.Basic

set_option relaxedAutoImplicit false
set_option autoImplicit false

/-!
# First-in first-out queues with cancellation

The abstract queue is a list of pairs of a key and a value, oldest first. `put` appends a pair
under a key that the implementation chooses, or refuses; `takeOne` removes the head, `takeAll`
everything, and `cancel` the pair of a given key.

An implementation is described by its *history*: the calls made so far with their results, newest
first. The abstract queue after a history, the pairs that were ever put and those that were
removed again are functions of the history.

## Main definitions

* `Fifo.Call`, `Fifo.Result`, `Fifo.Gives` — calls, and the results that a queue gives.
* `Fifo.contents`, `Fifo.issued`, `Fifo.gone` — the queue, all pairs, and the removed pairs.

## Main results

* `Fifo.mem_contents_iff` — the queue holds exactly the pairs that were put and not removed.
-/

namespace QubitLock.Fifo

variable {K V E : Type}

/-- The calls on a queue. -/
inductive Call (K V : Type) where
  | put (v : V)
  | takeOne
  | takeAll
  | cancel (k : K)

/-- The results of the calls. -/
inductive Result (K V E : Type) where
  | put (r : Except E K)
  | tookOne (v : Option V)
  | tookAll (vs : List V)
  | cancelled (v : Option V)

/-- The pair that a call with its result appends. -/
def added : Call K V × Result K V E → List (K × V)
  | (.put v, .put (.ok k)) => [(k, v)]
  | _ => []

/-- The pairs that were ever put, newest first. -/
def issued (h : List (Call K V × Result K V E)) : List (K × V) :=
  h.flatMap added

@[simp] lemma issued_cons (s : Call K V × Result K V E) (h : List (Call K V × Result K V E)) :
    issued (s :: h) = added s ++ issued h := rfl

variable [DecidableEq K]

/-- The results that a queue with contents `q` gives. It leaves the key of a new pair open. -/
def Gives (q : List (K × V)) : Call K V → Result K V E → Prop
  | .put _, .put _ => True
  | .takeOne, .tookOne v => v = q.head?.map Prod.snd
  | .takeAll, .tookAll vs => vs = q.map Prod.snd
  | .cancel k, .cancelled v => v = (q.find? fun e => e.1 = k).map Prod.snd
  | _, _ => False

/-- The pairs that a call leaves in the queue. -/
def left (q : List (K × V)) : Call K V → List (K × V)
  | .put _ => q
  | .takeOne => q.tail
  | .takeAll => []
  | .cancel k => q.filter fun e => e.1 ≠ k

/-- The pairs that a call removes from the queue. -/
def removed (q : List (K × V)) : Call K V → List (K × V)
  | .put _ => []
  | .takeOne => q.head?.toList
  | .takeAll => q
  | .cancel k => q.filter fun e => e.1 = k

/-- The queue after a history. -/
def contents : List (Call K V × Result K V E) → List (K × V)
  | [] => []
  | s :: h => left (contents h) s.1 ++ added s

/-- The pairs that were removed in a history. -/
def gone : List (Call K V × Result K V E) → List (K × V)
  | [] => []
  | s :: h => removed (contents h) s.1 ++ gone h

/-- A call removes what it does not leave. -/
lemma removed_append_left_perm (q : List (K × V)) (c : Call K V) :
    (removed q c ++ left q c).Perm q := by
  cases c with
  | put v => exact List.Perm.refl q
  | takeOne =>
    cases q with
    | nil => exact List.Perm.refl []
    | cons e q => exact List.Perm.refl (e :: q)
  | takeAll => simp [removed, left]
  | cancel k =>
    have hperm := List.filter_append_perm (fun e : K × V => decide (e.1 = k)) q
    have hfilter : (q.filter fun e => !decide (e.1 = k)) = q.filter fun e => decide (e.1 ≠ k) := by
      simp
    rw [hfilter] at hperm
    exact hperm

/-- The pairs that were put are those that were removed and those in the queue.

**Proof sketch.** Induction over the history: a call moves pairs from the queue to the removed ones
and adds a new pair on both sides. -/
lemma gone_append_contents_perm (h : List (Call K V × Result K V E)) :
    (gone h ++ contents h).Perm (issued h) := by
  induction h with
  | nil => exact List.Perm.refl []
  | cons s h ih =>
    have hsplit := removed_append_left_perm (contents h) s.1
    have hold : (removed (contents h) s.1 ++ gone h ++ left (contents h) s.1).Perm (issued h) := by
      have hswap : (removed (contents h) s.1 ++ gone h ++ left (contents h) s.1).Perm
          (gone h ++ (removed (contents h) s.1 ++ left (contents h) s.1)) := by
        rw [← List.append_assoc]
        exact List.perm_append_comm.append_right _
      exact hswap.trans ((hsplit.append_left (gone h)).trans ih)
    have hnew : (gone (s :: h) ++ contents (s :: h)).Perm (issued h ++ added s) := by
      show (removed (contents h) s.1 ++ gone h ++ (left (contents h) s.1 ++ added s)).Perm _
      rw [← List.append_assoc]
      exact hold.append_right (added s)
    exact hnew.trans List.perm_append_comm

/-- **The queue holds exactly the pairs that were put and not removed.**

**Proof sketch.** What is gone and what is in the queue is a permutation of what was put
(`gone_append_contents_perm`), and nothing is put twice, so the two parts are disjoint. -/
theorem mem_contents_iff {h : List (Call K V × Result K V E)} (hn : (issued h).Nodup)
    (e : K × V) : e ∈ contents h ↔ e ∈ issued h ∧ e ∉ gone h := by
  have hperm := gone_append_contents_perm h
  have hdisj := (List.nodup_append.mp (hperm.nodup_iff.mpr hn)).2.2
  have hmem : e ∈ issued h ↔ e ∈ gone h ∨ e ∈ contents h := by
    rw [← hperm.mem_iff, List.mem_append]
  rw [hmem]
  constructor
  · intro he
    exact ⟨.inr he, fun hg => hdisj e hg e he rfl⟩
  · rintro ⟨hg | he, hn⟩
    · exact absurd hg hn
    · exact he

/-- A cancellation succeeds exactly on the pairs in the queue, if keys are used once.

**Proof sketch.** Induction on the queue. If the first pair has the key, no later one has. -/
lemma find?_eq_some_iff {q : List (K × V)} (hn : (q.map Prod.fst).Nodup) {k : K} {v : V} :
    (q.find? fun e => e.1 = k).map Prod.snd = some v ↔ (k, v) ∈ q := by
  induction q with
  | nil => simp
  | cons e q ih =>
    obtain ⟨hne, hn⟩ := List.nodup_cons.mp hn
    by_cases hk : e.1 = k
    · have hnot : (k, v) ∉ q := by
        intro hmem
        exact hne (hk ▸ List.mem_map_of_mem hmem)
      have heq : some e.2 = some v ↔ (k, v) = e := by
        rw [Option.some.injEq]
        constructor
        · rintro rfl
          exact Prod.ext hk.symm rfl
        · rintro rfl
          rfl
      simp only [List.find?_cons, hk, decide_true, Option.map_some, List.mem_cons, hnot, or_false]
      exact heq
    · have hne' : (k, v) ≠ e := by
        rintro rfl
        exact hk rfl
      simp only [List.find?_cons, hk, decide_false, List.mem_cons, hne', false_or]
      exact ih hn

end QubitLock.Fifo
