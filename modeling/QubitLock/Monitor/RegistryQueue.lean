import QubitLock.Library.Fifo
import QubitLock.Monitor.WaiterRegistry

set_option relaxedAutoImplicit false
set_option autoImplicit false

/-!
# The waiter registry refines a queue

The registry keeps a map and a counter; no order of registration is stored. Here the registry is
driven by an arbitrary sequence of calls, and compared with the abstract queue of
`QubitLock.Library.Fifo` that went through the same calls: `register` appends, `takeOne` removes the
head, `takeAll` everything, `unregister` the pair with the given identifier.

## Main definitions

* `WaiterRegistry.apply`, `WaiterRegistry.after` — one call, and the history of a sequence of calls.
* `WaiterRegistry.Refines` — the registry and its history agree with the queue.

## Main results

* `WaiterRegistry.refines_queue` — they do after every sequence of calls on a new registry.
-/

namespace QubitLock.WaiterRegistry

variable {W : Type}

/-- A call on the registry with its result. -/
abbrev Step (W : Type) : Type := Fifo.Call ℕ W × Fifo.Result ℕ W String

/-- The method of the registry that a call of the queue stands for. -/
def apply (r : WaiterRegistry W) :
    Fifo.Call ℕ W → Fifo.Result ℕ W String × WaiterRegistry W
  | .put waiter => ((.put (r.register waiter).1), (r.register waiter).2)
  | .takeOne => ((.tookOne r.takeOne.1), r.takeOne.2)
  | .takeAll => ((.tookAll r.takeAll.1), r.takeAll.2)
  | .cancel waiterId => ((.cancelled (r.unregister waiterId).1), (r.unregister waiterId).2)

/-- The history of a sequence of calls on a new registry, and the registry afterwards. The calls are
given newest first, as is the history. -/
def after : List (Fifo.Call ℕ W) → List (Step W) × WaiterRegistry W
  | [] => ([], new)
  | c :: cs =>
    let (h, r) := after cs
    ((c, (r.apply c).1) :: h, (r.apply c).2)

/-- A registry and the history that led to it agree with the abstract queue. -/
structure Refines (h : List (Step W)) (r : WaiterRegistry W) : Prop where
  /-- The entries in the order of their identifiers are the queue. -/
  entries : r.entries = Fifo.contents h
  /-- Every call returned what the queue gave at that point. -/
  gives : ∀ c res past, (c, res) :: past <:+ h → Fifo.Gives (Fifo.contents past) c res
  /-- `unregister` returned the waiter exactly if its registration was made and had been neither
  taken nor unregistered. -/
  cancelled : ∀ k res past, (.cancel k, .cancelled res) :: past <:+ h → ∀ w, res = some w ↔
    (k, w) ∈ Fifo.issued past ∧ (k, w) ∉ Fifo.gone past
  /-- The identifiers returned so far are nonzero and below the next one. -/
  ids : ∀ e ∈ Fifo.issued h, 0 < e.1 ∧ e.1 < r.nextWaiterId
  /-- They are strictly increasing, newest first, so none is used twice. -/
  increasing : (Fifo.issued h).Pairwise fun e e' => e'.1 < e.1
  /-- All keys are below the next identifier. -/
  keys : ∀ e ∈ r.entries, e.1 < r.nextWaiterId
  /-- The uniqueness assertion did not fire. -/
  unique : ∀ w, (.put w, .put (.error "monitor waiter identifier must be unique")) ∉ h
  /-- The next `register` panics exactly at the limit of the counter. -/
  exhausted : ∀ w, (∃ msg, (r.register w).1 = .error msg) ↔ r.nextWaiterId = 2 ^ 64 - 1
  /-- A panic of `register` leaves the counter and all entries as they are. -/
  unchanged : ∀ w msg, (r.register w).1 = .error msg → (r.register w).2 = r

/-! ## One call -/

/-- A call keeps the registry well formed. -/
lemma WellFormed.apply {r : WaiterRegistry W} (h : r.WellFormed) (c : Fifo.Call ℕ W) :
    (r.apply c).2.WellFormed := by
  cases c with
  | put w => exact h.register w
  | takeOne => exact h.takeOne
  | takeAll => exact h.takeAll
  | cancel k => exact h.unregister k

/-- The identifiers in use are distinct. -/
lemma nodup_keys (r : WaiterRegistry W) : (r.entries.map Prod.fst).Nodup := by
  rw [List.nodup_iff_pairwise_ne, List.pairwise_map]
  exact r.entries_sorted.imp fun hlt => hlt.ne

/-- `unregister` looks its identifier up among the entries. -/
lemma unregister_fst_eq_find? (r : WaiterRegistry W) (k : ℕ) :
    (r.unregister k).1 = (r.entries.find? fun e => e.1 = k).map Prod.snd := by
  apply Option.ext
  intro w
  rw [r.unregister_fst, Fifo.find?_eq_some_iff r.nodup_keys]

/-- A call returns what the queue of the entries gives. -/
lemma gives_apply (r : WaiterRegistry W) (c : Fifo.Call ℕ W) :
    Fifo.Gives r.entries c (r.apply c).1 := by
  cases c with
  | put w => exact trivial
  | takeOne => exact r.takeOne_fst
  | takeAll => exact r.takeAll_fst
  | cancel k => exact r.unregister_fst_eq_find? k

/-- The pairs that a call puts, in terms of the counter: `register` puts one pair below the limit,
and the counter moves past its identifier. -/
lemma added_apply {r : WaiterRegistry W} (hr : r.WellFormed) (c : Fifo.Call ℕ W) :
    (∃ w, Fifo.added (c, (r.apply c).1) = [(r.nextWaiterId, w)] ∧
      (r.apply c).2.nextWaiterId = r.nextWaiterId + 1) ∨
    (Fifo.added (c, (r.apply c).1) = [] ∧
      (r.apply c).2.nextWaiterId = r.nextWaiterId) := by
  cases c with
  | put w =>
    by_cases hlt : r.nextWaiterId + 1 < 2 ^ 64
    · refine .inl ⟨w, ?_⟩
      simp only [apply, register_of_lt hr w hlt, Fifo.added, and_self]
    · refine .inr ?_
      simp only [apply, register_of_not_lt w hlt, Fifo.added, and_self]
  | takeOne => exact .inr ⟨rfl, rfl⟩
  | takeAll => exact .inr ⟨rfl, rfl⟩
  | cancel k => exact .inr ⟨rfl, rfl⟩

/-- A call changes the entries as it changes the queue. -/
lemma entries_apply {r : WaiterRegistry W} (hr : r.WellFormed) (c : Fifo.Call ℕ W) :
    (r.apply c).2.entries = Fifo.left r.entries c ++ Fifo.added (c, (r.apply c).1) := by
  cases c with
  | put w =>
    by_cases hlt : r.nextWaiterId + 1 < 2 ^ 64
    · have hentries := entries_register hr w hlt
      simp only [register_of_lt hr w hlt] at hentries
      simp only [apply, register_of_lt hr w hlt, Fifo.left, Fifo.added]
      exact hentries
    · simp only [apply, register_of_not_lt w hlt, Fifo.left, Fifo.added, List.append_nil]
  | takeOne => simp [apply, Fifo.left, Fifo.added]
  | takeAll => simp [apply, Fifo.left, Fifo.added]
  | cancel k => simp [apply, Fifo.left, Fifo.added]

/-- On a well-formed registry, `register` panics only at the limit of the counter. -/
lemma register_error {r : WaiterRegistry W} (hr : r.WellFormed) {w : W} {msg : String}
    (h : (r.register w).1 = .error msg) :
    ¬ r.nextWaiterId + 1 < 2 ^ 64 ∧ msg = "monitor waiter identifiers exhausted" := by
  by_cases hlt : r.nextWaiterId + 1 < 2 ^ 64
  · rw [register_of_lt hr w hlt] at h
    cases h
  · rw [register_of_not_lt w hlt] at h
    cases h
    exact ⟨hlt, rfl⟩

/-! ## A sequence of calls -/

/-- The registry is well formed after every sequence of calls. -/
lemma wellFormed_after (cs : List (Fifo.Call ℕ W)) : (after cs).2.WellFormed := by
  induction cs with
  | nil => exact .new
  | cons c cs ih => exact ih.apply c

/-- The entries are the queue after the same calls. -/
lemma entries_after (cs : List (Fifo.Call ℕ W)) :
    (after cs).2.entries = Fifo.contents (after cs).1 := by
  induction cs with
  | nil => rfl
  | cons c cs ih =>
    show ((after cs).2.apply c).2.entries = _
    rw [entries_apply (wellFormed_after cs) c, ih]
    rfl

/-- The identifiers returned so far are nonzero and below the next one. -/
lemma ids_after (cs : List (Fifo.Call ℕ W)) :
    ∀ e ∈ Fifo.issued (after cs).1, 0 < e.1 ∧ e.1 < (after cs).2.nextWaiterId := by
  induction cs with
  | nil => exact List.forall_mem_nil _
  | cons c cs ih =>
    intro e he
    have hpos := (wellFormed_after cs).pos
    rw [show (after (c :: cs)).1 = (c, ((after cs).2.apply c).1) :: (after cs).1 from rfl,
      Fifo.issued_cons, List.mem_append] at he
    show 0 < e.1 ∧ e.1 < ((after cs).2.apply c).2.nextWaiterId
    rcases added_apply (wellFormed_after cs) c with ⟨w, hadd, hnext⟩ | ⟨hadd, hnext⟩
    · rw [hadd, List.mem_singleton] at he
      rw [hnext]
      rcases he with rfl | he
      · exact ⟨hpos, Nat.lt_succ_self _⟩
      · exact ⟨(ih e he).1, (ih e he).2.trans (Nat.lt_succ_self _)⟩
    · rw [hadd] at he
      rw [hnext]
      exact ih e (he.resolve_left List.not_mem_nil)

/-- The identifiers are strictly increasing: each new one is above all before it. -/
lemma increasing_after (cs : List (Fifo.Call ℕ W)) :
    (Fifo.issued (after cs).1).Pairwise fun e e' => e'.1 < e.1 := by
  induction cs with
  | nil => exact .nil
  | cons c cs ih =>
    show (Fifo.added (c, ((after cs).2.apply c).1) ++ Fifo.issued (after cs).1).Pairwise _
    rcases added_apply (wellFormed_after cs) c with ⟨w, hadd, -⟩ | ⟨hadd, -⟩
    · rw [hadd]
      exact List.Pairwise.cons (fun e he => (ids_after cs e he).2) ih
    · rw [hadd]
      exact ih

/-- The pairs that were put are distinct. -/
lemma nodup_issued_after (cs : List (Fifo.Call ℕ W)) : (Fifo.issued (after cs).1).Nodup := by
  refine (increasing_after cs).imp ?_
  rintro e e' hlt rfl
  exact lt_irrefl _ hlt

/-- Every call in a history was made on the registry that the calls before it left. -/
lemma exists_after_of_suffix {cs : List (Fifo.Call ℕ W)} {c : Fifo.Call ℕ W}
    {res : Fifo.Result ℕ W String} {past : List (Step W)}
    (h : (c, res) :: past <:+ (after cs).1) :
    ∃ cs', past = (after cs').1 ∧ res = ((after cs').2.apply c).1 := by
  induction cs with
  | nil => simp [after] at h
  | cons c' cs ih =>
    rcases List.suffix_cons_iff.mp h with heq | h
    · obtain ⟨hstep, rfl⟩ := List.cons.inj heq
      obtain ⟨rfl, rfl⟩ := Prod.mk.inj hstep
      exact ⟨cs, rfl, rfl⟩
    · exact ih h

/-- **The waiter registry refines a first-in first-out queue with cancellation.** After every
sequence of calls on a new registry, and for identifiers that are 64-bit words.

**Proof sketch.** The registry stays well formed, so every new identifier is above all earlier ones
and the map order of the entries is the order of the queue. What a single call returns is then
`gives_apply`, at the point of the history where it was made. -/
theorem refines_queue (cs : List (Fifo.Call ℕ W)) : Refines (after cs).1 (after cs).2 where
  entries := entries_after cs
  gives c res past h := by
    obtain ⟨cs', rfl, rfl⟩ := exists_after_of_suffix h
    rw [← entries_after cs']
    exact gives_apply _ c
  cancelled k res past h w := by
    obtain ⟨cs', rfl, hres⟩ := exists_after_of_suffix h
    cases hres
    rw [unregister_fst, entries_after cs', Fifo.mem_contents_iff (nodup_issued_after cs')]
  ids := ids_after cs
  increasing := increasing_after cs
  keys := (wellFormed_after cs).key_lt
  unique w h := by
    obtain ⟨past, later, heq⟩ := List.append_of_mem h
    obtain ⟨cs', -, hres⟩ := exists_after_of_suffix (heq ▸ List.suffix_append past _)
    have herror : ((after cs').2.register w).1 =
        .error "monitor waiter identifier must be unique" := by
      cases hres' : ((after cs').2.register w).1 <;> simp_all [apply]
    exact absurd (register_error (wellFormed_after cs') herror).2 (by decide)
  exhausted w := by
    have hword := (wellFormed_after cs).word
    constructor
    · rintro ⟨msg, h⟩
      have hlimit := (register_error (wellFormed_after cs) h).1
      omega
    · intro hlimit
      exact ⟨_, by rw [register_of_not_lt w (by omega)]⟩
  unchanged w msg h := by
    rw [register_of_not_lt w (register_error (wellFormed_after cs) h).1]

end QubitLock.WaiterRegistry
