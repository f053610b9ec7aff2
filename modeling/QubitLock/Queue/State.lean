import Mathlib.Data.List.Basic
import QubitLock.Library.Run

set_option relaxedAutoImplicit false
set_option autoImplicit false

/-!
# The closable bounded queue

The state of the bounded queue (`examples/bounded_queue.rs`), its operations, and what each of them
does when nobody else is there. `push` needs room, `pop` an item, and neither waits once the queue is
closed.

The operations of one queue in a row are a run of a transition system, whose trace is the list of the
operations with their results. Everything that a user expects of a queue is proved of such rows.

## Main definitions

* `QueueState`, `Queue.Op`, `Queue.Res` — the state, the operations and their results.
* `QueueState.apply` — an operation on its own; `none` if it waits.
* `Queue.pushed`, `Queue.popped` — the items that a row of operations added and removed.
* `Queue.Lawful` — a row of operations that keeps the promises of a queue.

## Main results

* `Queue.Row.rule` — the rule for rows of operations.
* `Queue.Row.lawful` — what a user expects: order, capacity, and what closing does.
-/

namespace QubitLock

/-- `QueueState`; the capacity is a `NonZeroUsize`. -/
structure QueueState (α : Type) where
  items : List α
  capacity : ℕ
  capacity_pos : 0 < capacity
  closed : Bool
  deriving DecidableEq

namespace Queue

section Syntax

variable (α : Type)

/-- The operations of the queue. -/
inductive Op where
  | push (item : α)
  | pop
  | popFor (timeout : ℕ)
  | close
  deriving DecidableEq

/-- The results of the actions of the operations. -/
inductive Res where
  /-- `push`: the item is given back if the queue is closed. -/
  | pushed (r : Except α Unit)
  /-- `pop`, `pop_for`. -/
  | popped (item : Option α)
  | closed
  deriving DecidableEq

end Syntax

end Queue

namespace QueueState

variable {α : Type}

/-- An open queue without items. -/
def new (capacity : ℕ) (h : 0 < capacity) : QueueState α := ⟨[], capacity, h, false⟩

/-- `push` does not wait. -/
def canPush (s : QueueState α) : Bool := s.closed || decide (s.items.length < s.capacity)

/-- `pop` does not wait. -/
def canPop (s : QueueState α) : Bool := s.closed || !s.items.isEmpty

/-- The action of `push`. -/
def pushBack (item : α) (s : QueueState α) : QueueState α × Queue.Res α :=
  if s.closed then (s, .pushed (.error item))
  else ({ s with items := s.items ++ [item] }, .pushed (.ok ()))

/-- The action of `pop`. -/
def popFront (s : QueueState α) : QueueState α × Queue.Res α :=
  ({ s with items := s.items.tail }, .popped s.items.head?)

/-- The action of `close`. -/
def close (s : QueueState α) : QueueState α × Queue.Res α := ({ s with closed := true }, .closed)

/-- An operation does not wait. -/
def admits (s : QueueState α) : Queue.Op α → Bool
  | .push _ => s.canPush
  | .pop | .popFor _ => s.canPop
  | .close => true

/-- The action of an operation. -/
def act (s : QueueState α) : Queue.Op α → QueueState α × Queue.Res α
  | .push item => s.pushBack item
  | .pop | .popFor _ => s.popFront
  | .close => s.close

/-- An operation on its own, with its result; `none` if it waits. -/
def apply (s : QueueState α) (op : Queue.Op α) : Option (QueueState α × (Queue.Op α × Queue.Res α)) :=
  if s.admits op then some ((s.act op).1, (op, (s.act op).2)) else none

/-- **What an operation does on its own.** -/
lemma apply_eq_some {s s' : QueueState α} {op op' : Queue.Op α} {r : Queue.Res α}
    (h : s.apply op = some (s', (op', r))) : op' = op ∧ s.admits op = true ∧ s.act op = (s', r) := by
  simp only [apply, Option.ite_none_right_eq_some, Option.some.injEq, Prod.mk.injEq] at h
  obtain ⟨hadmits, rfl, rfl, rfl⟩ := h
  exact ⟨rfl, hadmits, rfl⟩

end QueueState

namespace Queue

variable {α : Type}

/-- A row of operations from `s₀`, newest first, which leads to `s`. -/
abbrev Row (s₀ : QueueState α) (ops : List (Op α × Res α)) (s : QueueState α) : Prop :=
  Lts.Run QueueState.apply s₀ ops s

/-- The items that a row of operations added, oldest first. -/
def pushed : List (Op α × Res α) → List α
  | [] => []
  | (.push item, .pushed (.ok ())) :: ops => pushed ops ++ [item]
  | _ :: ops => pushed ops

/-- The items that a row of operations removed, oldest first. -/
def popped : List (Op α × Res α) → List α
  | [] => []
  | (_, .popped (some item)) :: ops => popped ops ++ [item]
  | _ :: ops => popped ops

variable {s₀ s : QueueState α} {ops : List (Op α × Res α)}

/-- **The rule for rows**: one obligation for each operation.

**Proof sketch.** Induction on the row. What the queue admits decides which of the five the operation
is: a pop on an empty queue needs a closed one, a push on an open queue needs room. -/
theorem Row.rule {I : List (Op α × Res α) → QueueState α → Prop} (h₀ : I [] s₀)
    (hpush : ∀ {ops s} item, Row s₀ ops s → I ops s → s.closed = false →
      s.items.length < s.capacity →
      I ((.push item, .pushed (.ok ())) :: ops) { s with items := s.items ++ [item] })
    (hrefused : ∀ {ops s} item, Row s₀ ops s → I ops s → s.closed = true →
      I ((.push item, .pushed (.error item)) :: ops) s)
    (hpop : ∀ {ops s op} item rest, Row s₀ ops s → I ops s → s.items = item :: rest →
      I ((op, .popped (some item)) :: ops) { s with items := rest })
    (hempty : ∀ {ops s op}, Row s₀ ops s → I ops s → s.items = [] → s.closed = true →
      I ((op, .popped none) :: ops) s)
    (hclose : ∀ {ops s}, Row s₀ ops s → I ops s →
      I ((.close, .closed) :: ops) { s with closed := true }) (h : Row s₀ ops s) : I ops s := by
  refine Lts.Run.invariant (I := I) h₀ ?_ h
  intro ops s op s' l hr hi hs
  obtain ⟨op', r⟩ := l
  obtain ⟨rfl, hadmits, hact⟩ := QueueState.apply_eq_some hs
  have hpopped : s.canPop = true → s.popFront = (s', r) → I ((op', r) :: ops) s' := by
    intro hcan hact
    cases hitems : s.items with
    | nil =>
      have hclosed : s.closed = true := by simpa [QueueState.canPop, hitems] using hcan
      obtain ⟨rfl, rfl⟩ : s = s' ∧ .popped none = r := by
        obtain ⟨items, capacity, hpos, closed⟩ := s
        obtain rfl : items = [] := hitems
        simpa [QueueState.popFront] using hact
      exact hempty hr hi hitems hclosed
    | cons item rest =>
      obtain ⟨rfl, rfl⟩ : { s with items := rest } = s' ∧ .popped (some item) = r := by
        simpa [QueueState.popFront, hitems] using hact
      exact hpop item rest hr hi hitems
  cases op' with
  | push item =>
    have hcan : s.canPush = true := hadmits
    have hact : s.pushBack item = (s', r) := hact
    cases hclosed : s.closed with
    | true =>
      obtain ⟨rfl, rfl⟩ : s = s' ∧ .pushed (.error item) = r := by
        simpa [QueueState.pushBack, hclosed] using hact
      exact hrefused item hr hi hclosed
    | false =>
      have hroom : s.items.length < s.capacity := by simpa [QueueState.canPush, hclosed] using hcan
      obtain ⟨rfl, rfl⟩ : { s with items := s.items ++ [item] } = s' ∧ .pushed (.ok ()) = r := by
        simpa [QueueState.pushBack, hclosed] using hact
      exact hpush item hr hi hclosed hroom
  | pop => exact hpopped hadmits hact
  | popFor timeout => exact hpopped hadmits hact
  | close =>
    obtain ⟨rfl, rfl⟩ : { s with closed := true } = s' ∧ .closed = r := by
      simpa [QueueState.act, QueueState.close] using hact
    exact hclose hr hi

/-- **First in, first out**: the items removed so far, and then the items in the queue, are the items
that were there and then those added so far.

**Proof sketch.** By the rule for rows: an item is added behind the others, and the first one is
removed. -/
theorem fifo (h : Row s₀ ops s) : popped ops ++ s.items = s₀.items ++ pushed ops := by
  refine Row.rule (I := fun ops s => popped ops ++ s.items = s₀.items ++ pushed ops) ?_ ?_ ?_ ?_ ?_ ?_ h
  · simp [popped, pushed]
  · intro ops s item hr hi _ _
    simp only [popped, pushed]
    rw [← List.append_assoc, hi, List.append_assoc]
  · intro ops s item hr hi _
    exact hi
  · intro ops s op item rest hr hi hitems
    have hpushed : pushed ((op, .popped (some item)) :: ops) = pushed ops := by
      cases op <;> rfl
    rw [hpushed, ← hi, hitems]
    simp [popped]
  · intro ops s op hr hi _ _
    cases op <;> exact hi
  · intro ops s hr hi
    exact hi

/-- No operation changes the capacity. -/
theorem capacity_eq (h : Row s₀ ops s) : s.capacity = s₀.capacity := by
  refine Row.rule (I := fun _ s => s.capacity = s₀.capacity) rfl ?_ ?_ ?_ ?_ ?_ h
  all_goals
    intros
    assumption

/-- **The queue never holds more than its capacity.** -/
theorem length_le (h₀ : s₀.items.length ≤ s₀.capacity) (h : Row s₀ ops s) :
    s.items.length ≤ s.capacity := by
  refine Row.rule (I := fun _ s => s.items.length ≤ s.capacity) h₀ ?_ ?_ ?_ ?_ ?_ h
  · intro ops s item hr hi _ hroom
    simp only [List.length_append, List.length_singleton]
    omega
  · intro ops s item hr hi _
    exact hi
  · intro ops s op item rest hr hi hitems
    rw [hitems, List.length_cons] at hi
    show rest.length ≤ s.capacity
    omega
  · intro ops s op hr hi _ _
    exact hi
  · intro ops s hr hi
    exact hi

/-- **A queue is closed exactly if it was closed.** -/
theorem closed_iff (h : Row s₀ ops s) :
    s.closed = true ↔ s₀.closed = true ∨ (.close, .closed) ∈ ops := by
  refine Row.rule (I := fun ops s => s.closed = true ↔ s₀.closed = true ∨ (.close, .closed) ∈ ops)
    ?_ ?_ ?_ ?_ ?_ ?_ h
  · simp
  · intro ops s item hr hi _ _
    simpa using hi
  · intro ops s item hr hi _
    simpa using hi
  · intro ops s op item rest hr hi _
    simpa using hi
  · intro ops s op hr hi _ _
    simpa using hi
  · intro ops s hr hi
    simp

/-- A suffix of a longer list that is not the list itself. -/
lemma suffix_of_cons {l : Op α × Res α} {past ops : List (Op α × Res α)} {op : Op α × Res α}
    (hne : l ≠ op) (hs : l :: past <:+ op :: ops) : l :: past <:+ ops := by
  rcases List.suffix_cons_iff.mp hs with heq | hs
  · cases heq
    exact absurd rfl hne
  · exact hs

/-- **A closed queue takes no item.**

**Proof sketch.** By the rule for rows. An item is added only while the queue is open, and after the
closing it is closed (`closed_iff`). -/
theorem pushed_after_close (h : Row s₀ ops s) {past : List (Op α × Res α)}
    (hs : (.close, .closed) :: past <:+ ops) : pushed ops = pushed past := by
  revert past
  refine Row.rule (I := fun ops _ => ∀ {past}, (.close, .closed) :: past <:+ ops →
    pushed ops = pushed past) ?_ ?_ ?_ ?_ ?_ ?_ h
  · intro past hs
    cases List.suffix_nil.mp hs
  · intro ops s item hr hi hopen _ past hs
    have hmem : (Op.close, Res.closed) ∈ ops :=
      (suffix_of_cons (by simp) hs).subset List.mem_cons_self
    rw [(closed_iff hr).mpr (.inr hmem)] at hopen
    cases hopen
  · intro ops s item hr hi _ past hs
    exact hi (suffix_of_cons (by simp) hs)
  · intro ops s op item rest hr hi _ past hs
    rw [← hi (suffix_of_cons (by simp) hs)]
    cases op <;> rfl
  · intro ops s op hr hi _ _ past hs
    rw [← hi (suffix_of_cons (by simp) hs)]
    cases op <;> rfl
  · intro ops s hr hi past hs
    rcases List.suffix_cons_iff.mp hs with heq | hs
    · cases heq
      rfl
    · exact hi hs

/-- **A row of operations of a new queue.** -/
structure Lawful (capacity : ℕ) (ops : List (Op α × Res α)) (s : QueueState α) : Prop where
  /-- Items leave in the order in which they came. -/
  fifo : popped ops ++ s.items = pushed ops
  /-- There are never more than the capacity. -/
  length_le : s.items.length ≤ capacity
  closed_iff : s.closed = true ↔ (.close, .closed) ∈ ops
  /-- Nothing is added after closing. -/
  closed : ∀ {past}, (.close, .closed) :: past <:+ ops → pushed ops = pushed past
  /-- An item is given back only after closing, and it is the one that was to be added. -/
  refused : ∀ {op item past}, (op, .pushed (.error item)) :: past <:+ ops →
    op = .push item ∧ (.close, .closed) ∈ past
  /-- A consumer goes away with nothing only after closing, when everything added was removed. -/
  drained : ∀ {op past}, (op, .popped none) :: past <:+ ops →
    (.close, .closed) ∈ past ∧ popped past = pushed past

/-- Rows of operations of a new queue are lawful.

**Proof sketch.** `push` gives its item back only on a closed queue, and an operation finds nothing only
on an empty queue that is closed; there first in, first out says that everything was removed. -/
theorem Row.lawful {capacity : ℕ} {hpos : 0 < capacity} (h : Row (.new capacity hpos) ops s) :
    Lawful capacity ops s where
  fifo := by simpa [QueueState.new] using Queue.fifo h
  length_le := by
    have hlen := Queue.length_le (by simp [QueueState.new]) h
    rwa [Queue.capacity_eq h] at hlen
  closed_iff := by simpa [QueueState.new] using Queue.closed_iff h
  closed hs := pushed_after_close h hs
  refused {op item past} hs := by
    obtain ⟨s', op', s'', hr, hstep⟩ := Lts.Run.exists_step h hs
    obtain ⟨rfl, -, hact⟩ := QueueState.apply_eq_some hstep
    have hclosed := Queue.closed_iff hr
    cases op with
    | push item' =>
      simp only [QueueState.act, QueueState.pushBack] at hact
      split at hact
      · rename_i hc
        obtain ⟨-, rfl⟩ : s' = s'' ∧ item' = item := by simpa using hact
        exact ⟨rfl, by simpa [QueueState.new] using hclosed.mp hc⟩
      · cases hact
    | pop | popFor | close => cases hact
  drained {op past} hs := by
    obtain ⟨s', op', s'', hr, hstep⟩ := Lts.Run.exists_step h hs
    obtain ⟨rfl, hadmits, hact⟩ := QueueState.apply_eq_some hstep
    have hempty : s'.canPop = true → s'.popFront = (s'', .popped none) →
        (.close, .closed) ∈ past ∧ popped past = pushed past := by
      intro hcan hact
      have hitems : s'.items = [] := by
        have hhead : s'.items.head? = none := by
          simpa [QueueState.popFront] using congrArg Prod.snd hact
        exact List.head?_eq_none_iff.mp hhead
      have hclosed : s'.closed = true := by simpa [QueueState.canPop, hitems] using hcan
      have hfifo := Queue.fifo hr
      rw [hitems, List.append_nil] at hfifo
      exact ⟨by simpa [QueueState.new] using (Queue.closed_iff hr).mp hclosed,
        by simpa [QueueState.new] using hfifo⟩
    cases op with
    | push item =>
      simp only [QueueState.act, QueueState.pushBack] at hact
      split at hact <;> cases hact
    | pop => exact hempty hadmits hact
    | popFor timeout => exact hempty hadmits hact
    | close => cases hact

end Queue

end QubitLock
