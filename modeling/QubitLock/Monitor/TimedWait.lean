import QubitLock.Monitor.Conduct

set_option relaxedAutoImplicit false
set_option autoImplicit false

/-!
# Timed waits

What a timed predicate wait is for, said without its program: which reports it may make in which
order, and what it may return after them. The blocking and the asynchronous timed waits follow this
protocol (`Blocking/Outcome.lean`, `Tokio/Outcome.lean`), and their contract is proved from it once.

A timed wait takes the state lock, looks at the clock at most once, and checks. If the check tells
it to block, it fixes one deadline and creates one Timer future. It then loops: it suspends and
checks again, until a check tells it to stop, or the Timer reports the deadline before a check that
still blocks, or the Timer reports an error.

## Main definitions

* `Limit` — how the deadline of a wait is given.
* `Opened`, `Blocked`, `Looping` — the reports up to the first check, with it, and after the
  creation of the Timer future.
* `Phase`, `Limit.Spec` — the phases of a wait and the reports that lead to each.
* `Contract` — what a wait that returned has done.

## Main results

* `contract_gaveUp`, `contract_acted`, `contract_failed` — every way to return keeps the contract.
-/

namespace QubitLock

variable {σ ρ : Type}

/-- How the deadline of a timed wait is given: by a budget that starts with the first lock
acquisition, as an instant, or by a budget that starts with the call. -/
inductive Limit where
  | budget (timeout : ℕ)
  | instant (i : ℕ)
  | total (timeout : ℕ)

/-! ## The reports of a timed wait -/

/-- The samples of the clock. -/
def samples (ds : List (Did σ ρ)) : List ℕ :=
  ds.filterMap fun
    | .sampled now => some now
    | _ => none

/-- The deadlines for which a Timer future was requested. -/
def timers (ds : List (Did σ ρ)) : List ℕ :=
  ds.filterMap fun
    | .timerMade deadline _ => some deadline
    | _ => none

/-- The errors that the Timer reported. -/
def errors (ds : List (Did σ ρ)) : List TimeError :=
  ds.filterMap fun
    | .timerMade _ (.error e) => some e
    | .polled _ (.ready (.error e)) => some e
    | _ => none

/-- The first lock acquisition. -/
inductive Acquired : List (Did σ ρ) → Prop
  | locked {cs : List (Did σ ρ)} (hcs : ∀ d ∈ cs, d = .contended) : Acquired (.locked :: cs)

/-- The reports before the first check of a wait whose deadline is `deadline`. -/
inductive Opened (maxInstant : ℕ) : Limit → ℕ → List (Did σ ρ) → Prop
  | budget {timeout start : ℕ} {ds : List (Did σ ρ)} (h : Acquired ds) :
    Opened maxInstant (.budget timeout) (start + timeout) (.sampled start :: ds)
  | instant {i : ℕ} {ds : List (Did σ ρ)} (h : Acquired ds) : Opened maxInstant (.instant i) i ds
  | total {timeout start : ℕ} {ds : List (Did σ ρ)} (h : Acquired ds)
    (hmax : start + timeout ≤ maxInstant) :
    Opened maxInstant (.total timeout) (start + timeout) (ds ++ [.sampled start])

/-- Whether a wait that was told to block by its first check creates a Timer future. -/
def Limit.Arms (maxInstant : ℕ) (l : Limit) (deadline : ℕ) : Prop :=
  match l with
  | .budget timeout => timeout ≠ 0 ∧ deadline ≤ maxInstant
  | _ => True

instance (maxInstant : ℕ) (l : Limit) (deadline : ℕ) : Decidable (l.Arms maxInstant deadline) :=
  match l with
  | .budget _ => inferInstanceAs (Decidable (_ ∧ _))
  | .instant _ => inferInstanceAs (Decidable True)
  | .total _ => inferInstanceAs (Decidable True)

/-- The first check told the wait to block, on the value `v₀`. -/
inductive Blocked (maxInstant : ℕ) (l : Limit) (deadline : ℕ) (v₀ : σ) : List (Did σ ρ) → Prop
  | checked {ds : List (Did σ ρ)} (h : Opened maxInstant l deadline ds) :
    Blocked maxInstant l deadline v₀ (.checked v₀ (some true) :: ds)

/-- The reports that a suspension and the check after it may make, but for a completed Timer
future. -/
def Did.Loops : Did σ ρ → Prop
  | .locked | .contended | .unlocked | .checked _ (some true) | .polled _ .pending |
    .registered (some _) | .unregistered _ _ | .woke _ | .notified _ _ => True
  | _ => False

/-- The reports of a wait that has created its Timer future; `expired` tells whether a poll reported
the deadline as reached. -/
inductive Looping (maxInstant : ℕ) (l : Limit) (deadline : ℕ) (v₀ : σ) :
    Bool → List (Did σ ρ) → Prop
  | timerMade {ds : List (Did σ ρ)} (h : Blocked maxInstant l deadline v₀ ds)
    (ha : l.Arms maxInstant deadline) :
    Looping maxInstant l deadline v₀ false (.timerMade deadline (.ok ()) :: ds)
  | step {expired : Bool} {d : Did σ ρ} {ds : List (Did σ ρ)}
    (h : Looping maxInstant l deadline v₀ expired ds) (hd : d.Loops) :
    Looping maxInstant l deadline v₀ expired (d :: ds)
  | reached {expired : Bool} {wk : Waker} {ds : List (Did σ ρ)}
    (h : Looping maxInstant l deadline v₀ expired ds) :
    Looping maxInstant l deadline v₀ true (.polled wk (.ready (.ok ())) :: ds)

/-- The reports of a wait whose Timer future completed with the error `e`. The wait only drops its
registration and takes the lock after that. -/
inductive Failing (maxInstant : ℕ) (l : Limit) (deadline : ℕ) (v₀ : σ) (e : TimeError) :
    List (Did σ ρ) → Prop
  | polled {expired : Bool} {wk : Waker} {ds : List (Did σ ρ)}
    (h : Looping maxInstant l deadline v₀ expired ds) :
    Failing maxInstant l deadline v₀ e (.polled wk (.ready (.error e)) :: ds)
  | unregistered {i : ℕ} {b : Bool} {ds : List (Did σ ρ)}
    (h : Failing maxInstant l deadline v₀ e ds) :
    Failing maxInstant l deadline v₀ e (.unregistered i b :: ds)
  | contended {ds : List (Did σ ρ)} (h : Failing maxInstant l deadline v₀ e ds) :
    Failing maxInstant l deadline v₀ e (.contended :: ds)
  | locked {ds : List (Did σ ρ)} (h : Failing maxInstant l deadline v₀ e ds) :
    Failing maxInstant l deadline v₀ e (.locked :: ds)

/-- The ways to fail with the lock: the deadline is not representable, the Timer refuses the
deadline, or the Timer future completes with an error. -/
inductive Failed (maxInstant : ℕ) : Limit → TimeError → List (Did σ ρ) → Prop
  | overflow {timeout deadline : ℕ} {v₀ : σ} {ds : List (Did σ ρ)}
    (h : Blocked maxInstant (.budget timeout) deadline v₀ ds) (ht : timeout ≠ 0)
    (hmax : maxInstant < deadline) : Failed maxInstant (.budget timeout) .instantOverflow ds
  | refused {l : Limit} {deadline : ℕ} {v₀ : σ} {e : TimeError} {ds : List (Did σ ρ)}
    (h : Blocked maxInstant l deadline v₀ ds) (ha : l.Arms maxInstant deadline) :
    Failed maxInstant l e (.timerMade deadline (.error e) :: ds)
  | failing {l : Limit} {deadline : ℕ} {v₀ : σ} {e : TimeError} {ds : List (Did σ ρ)}
    (h : Failing maxInstant l deadline v₀ e ds) : Failed maxInstant l e ds

/-- The reports of a call whose first check, on `v₀`, answered `a`: no sample of the clock follows
the check. -/
def Opening (maxInstant : ℕ) (l : Limit) (deadline : ℕ) (v₀ : σ) (a : Bool)
    (ds : List (Did σ ρ)) : Prop :=
  ∃ rest ds₀, ds = rest ++ .checked v₀ (some a) :: ds₀ ∧ Opened maxInstant l deadline ds₀ ∧
    samples rest = []

/-- The clock and the Timer as a wait in progress has used them: it has sampled the clock at most
once, and it has requested at most one Timer future, for the deadline that `Opened` tells, after a
first check that blocks. -/
structure Limit.Frugal (maxInstant : ℕ) (l : Limit) (ds : List (Did σ ρ)) : Prop where
  samples : (samples ds).length ≤ 1
  timers : timers ds = [] ∨ ∃ deadline v₀, timers ds = [deadline] ∧
    Opening maxInstant l deadline v₀ true ds ∧ l.Arms maxInstant deadline

/-- A check told the wait to stop, the first one or a later one. -/
inductive Stopped (maxInstant : ℕ) (l : Limit) (v : σ) : List (Did σ ρ) → Prop
  | first {deadline : ℕ} {ds : List (Did σ ρ)} (h : Opened maxInstant l deadline ds) :
    Stopped maxInstant l v (.checked v (some false) :: ds)
  | later {deadline : ℕ} {v₀ : σ} {expired : Bool} {ds : List (Did σ ρ)}
    (h : Looping maxInstant l deadline v₀ expired ds) :
    Stopped maxInstant l v (.checked v (some false) :: ds)

/-- The wait was told to block by its latest check, and has held the lock since. -/
def Told (ds : List (Did σ ρ)) : Prop :=
  ∃ v, seen ds = some v ∧ .checked v (some true) ∈ ds

/-- The ways to time out: with an empty budget at the first check, or after the deadline. -/
inductive GaveUp (maxInstant : ℕ) : Limit → List (Did σ ρ) → Prop
  | empty {deadline : ℕ} {v₀ : σ} {ds : List (Did σ ρ)}
    (h : Blocked maxInstant (.budget 0) deadline v₀ ds) : GaveUp maxInstant (.budget 0) ds
  | expired {l : Limit} {deadline : ℕ} {v₀ : σ} {ds : List (Did σ ρ)}
    (h : Looping maxInstant l deadline v₀ true ds) (hd : Told ds) : GaveUp maxInstant l ds

/-- A total budget that is not representable: the wait has only looked at the clock. -/
inductive Overflowed (maxInstant : ℕ) : Limit → TimeError → List (Did σ ρ) → Prop
  | total {timeout start : ℕ} (hmax : maxInstant < start + timeout) :
    Overflowed maxInstant (.total timeout) .instantOverflow [.sampled start]

/-- The reports before the lock is taken; the deadline is known unless it is a budget. -/
inductive Acquiring (maxInstant : ℕ) : Limit → Option ℕ → List (Did σ ρ) → Prop
  | budget {timeout : ℕ} {cs : List (Did σ ρ)} (hcs : ∀ d ∈ cs, d = .contended) :
    Acquiring maxInstant (.budget timeout) none cs
  | instant {i : ℕ} {cs : List (Did σ ρ)} (hcs : ∀ d ∈ cs, d = .contended) :
    Acquiring maxInstant (.instant i) (some i) cs
  | total {timeout start : ℕ} {cs : List (Did σ ρ)} (hcs : ∀ d ∈ cs, d = .contended)
    (hmax : start + timeout ≤ maxInstant) :
    Acquiring maxInstant (.total timeout) (some (start + timeout)) (cs ++ [.sampled start])

/-! ## Phases -/

/-- The phases of a timed wait. -/
inductive Phase (ρ : Type) where
  /-- Nothing was done. -/
  | begun
  /-- The lock is being taken; the deadline is known unless it is a budget. -/
  | acquiring (deadline : Option ℕ)
  /-- A budget starts now. -/
  | locked
  /-- The first check is to be made. -/
  | opened (deadline : ℕ)
  /-- The Timer future is to be created. -/
  | blocked (deadline : ℕ)
  /-- The deadline is polled for the first time. -/
  | early
  /-- Suspending and checking; the deadline may be known to be reached. -/
  | looping (expired : Bool)
  /-- The Timer future completed with an error, which is to be returned with the lock. -/
  | failing (e : TimeError)
  /-- The action is to be run. -/
  | stopped
  /-- The wait returns with the lock. -/
  | gaveUp
  | failed (e : TimeError)
  | acted (r : ρ)
  /-- The wait returns without having taken the lock. -/
  | overflowed (e : TimeError)
  /-- The wait was dropped. -/
  | dropped
  /-- The wait is left by a panic. -/
  | unwinding
  /-- The wait is over. -/
  | left
  /-- No timed wait gets there. -/
  | never

/-- The phase in which a timed wait returns. -/
def returning : Outcome ρ → Phase ρ
  | .timed (.ok (.ready r)) => .acted r
  | .timed (.ok .timedOut) => .gaveUp
  | .timed (.error e) => .failed e
  | _ => .never

lemma returning_ne_left (out : Outcome ρ) : returning out ≠ .left := by
  unfold returning
  split <;> simp

/-- The reports that lead to each phase of a wait with action `f`. -/
def Limit.Spec (maxInstant : ℕ) (l : Limit) (f : σ → σ × Option ρ) (ds : List (Did σ ρ)) :
    Phase ρ → Prop
  | .begun => ds = []
  | .acquiring deadline => Acquiring maxInstant l deadline ds
  | .locked => Acquired ds
  | .opened deadline => Opened maxInstant l deadline ds
  | .blocked deadline => l.Arms maxInstant deadline ∧ ∃ v₀, Blocked maxInstant l deadline v₀ ds
  | .early => (∃ deadline v₀, Looping maxInstant l deadline v₀ false ds) ∧ Told ds
  | .looping expired =>
    ∃ deadline v₀ b, Looping maxInstant l deadline v₀ b ds ∧ (expired = true → b = true)
  | .failing e => ∃ deadline v₀, Failing maxInstant l deadline v₀ e ds
  | .stopped => ∃ v, Stopped maxInstant l v ds
  | .gaveUp => GaveUp maxInstant l ds
  | .failed e => Failed maxInstant l e ds
  | .acted r => ∃ v v' ds', ds = .wrote f v (some r) :: ds' ∧ Stopped maxInstant l v' ds'
  | .overflowed e => Overflowed maxInstant l e ds
  | .dropped => writes ds = [] ∧ l.Frugal maxInstant ds
  | .unwinding => l.Frugal maxInstant ds
  | .left => True
  | .never => False

section Steps

variable {maxInstant : ℕ} {l : Limit} {f : σ → σ × Option ρ} {ds : List (Did σ ρ)}
  {deadline : ℕ} {v : σ}

/-- A failed attempt to take the lock. -/
lemma Acquiring.contended {deadline : Option ℕ} (h : Acquiring maxInstant l deadline ds) :
    Acquiring maxInstant l deadline (.contended :: ds) := by
  cases h with
  | budget hcs => exact .budget (List.forall_mem_cons.mpr ⟨rfl, hcs⟩)
  | instant hcs => exact .instant (List.forall_mem_cons.mpr ⟨rfl, hcs⟩)
  | total hcs hmax => exact .total (List.forall_mem_cons.mpr ⟨rfl, hcs⟩) hmax

/-- A wait with a known deadline checks once it has the lock. -/
lemma Acquiring.opened (h : Acquiring maxInstant l (some deadline) ds) :
    Opened maxInstant l deadline (.locked :: ds) := by
  cases h with
  | instant hcs => exact .instant (.locked hcs)
  | total hcs hmax => exact .total (.locked hcs) hmax

/-- A wait with a budget samples the clock once it has the lock. -/
lemma Acquiring.acquired (h : Acquiring maxInstant l none ds) :
    Acquired (.locked :: ds : List (Did σ ρ)) := by
  cases h with
  | budget hcs => exact .locked hcs

/-- A report that keeps a wait in its loop. -/
lemma Limit.Spec.step {expired : Bool} {d : Did σ ρ}
    (h : l.Spec maxInstant f ds (.looping expired)) (hd : d.Loops) :
    l.Spec maxInstant f (d :: ds) (.looping expired) := by
  obtain ⟨deadline, v₀, b, hl, hb⟩ := h
  exact ⟨deadline, v₀, b, hl.step hd, hb⟩

/-- The Timer reports the deadline as reached. -/
lemma Limit.Spec.reached {expired : Bool} {wk : Waker}
    (h : l.Spec maxInstant f ds (.looping expired)) :
    l.Spec maxInstant f (.polled wk (.ready (.ok ())) :: ds) (.looping true) := by
  obtain ⟨deadline, v₀, b, hl, -⟩ := h
  exact ⟨deadline, v₀, true, hl.reached, fun _ => rfl⟩

/-- The Timer reports an error. -/
lemma Limit.Spec.failing {expired : Bool} {wk : Waker} {e : TimeError}
    (h : l.Spec maxInstant f ds (.looping expired)) :
    l.Spec maxInstant f (.polled wk (.ready (.error e)) :: ds) (.failing e) := by
  obtain ⟨deadline, v₀, b, hl, -⟩ := h
  exact ⟨deadline, v₀, .polled hl⟩

/-- An error is returned. -/
lemma Limit.Spec.failed {e : TimeError} (h : l.Spec maxInstant f ds (.failing e)) :
    l.Spec maxInstant f ds (.failed e) := by
  obtain ⟨deadline, v₀, hf⟩ := h
  exact Failed.failing hf

/-- A check in the loop tells the wait to stop. -/
lemma Limit.Spec.stopped {expired : Bool} (h : l.Spec maxInstant f ds (.looping expired)) (v : σ) :
    l.Spec maxInstant f (.checked v (some false) :: ds) .stopped := by
  obtain ⟨deadline, v₀, b, hl, -⟩ := h
  exact ⟨v, .later hl⟩

/-- A check tells the wait to block after the deadline was reached. -/
lemma Limit.Spec.gaveUp (h : l.Spec maxInstant f ds (.looping true)) (v : σ) :
    l.Spec maxInstant f (.checked v (some true) :: ds) .gaveUp := by
  obtain ⟨deadline, v₀, b, hl, hb⟩ := h
  obtain rfl := hb rfl
  exact .expired (hl.step trivial) ⟨v, rfl, List.mem_cons_self⟩

/-- The Timer future is created; the wait has held the lock since its first check. -/
lemma Limit.Spec.early (h : l.Spec maxInstant f ds (.blocked deadline)) :
    l.Spec maxInstant f (.timerMade deadline (.ok ()) :: ds) .early := by
  obtain ⟨ha, v₀, hb⟩ := h
  refine ⟨⟨deadline, v₀, .timerMade hb ha⟩, ?_⟩
  cases hb with
  | checked => exact ⟨v₀, rfl, List.mem_cons_of_mem _ List.mem_cons_self⟩

/-- The first poll belongs to the loop. -/
lemma Limit.Spec.looping (h : l.Spec maxInstant f ds .early) :
    l.Spec maxInstant f ds (.looping false) := by
  obtain ⟨⟨deadline, v₀, hl⟩, -⟩ := h
  exact ⟨deadline, v₀, false, hl, id⟩

/-- The deadline has passed at the first poll. -/
lemma Limit.Spec.gaveUp_early {wk : Waker} (h : l.Spec maxInstant f ds .early) :
    l.Spec maxInstant f (.polled wk (.ready (.ok ())) :: ds) .gaveUp := by
  obtain ⟨⟨deadline, v₀, hl⟩, v, hseen, hmem⟩ := h
  exact .expired hl.reached ⟨v, hseen, List.mem_cons_of_mem _ hmem⟩

end Steps

/-! ## What the reports of a wait contain -/

/-- The report says nothing about the clock, a Timer future, a write or a check that tells the wait
to stop. -/
def Did.Silent : Did σ ρ → Prop
  | .sampled _ | .timerMade _ _ | .polled _ (.ready _) | .wrote _ _ _ | .checked _ (some false) |
    .checked _ none => False
  | _ => True

/-- The reports of the loop are silent. -/
lemma Did.Loops.silent {d : Did σ ρ} (h : d.Loops) : d.Silent := by
  cases d with
  | checked v a => rcases a with _ | _ | _ <;> trivial
  | polled w r => cases r <;> trivial
  | _ => trivial

section Silent

variable {d : Did σ ρ} {ds : List (Did σ ρ)}

lemma Did.Silent.samples (h : d.Silent) : samples (d :: ds) = samples ds := by
  cases d with
  | sampled => cases h
  | _ => rfl

lemma Did.Silent.timers (h : d.Silent) : timers (d :: ds) = timers ds := by
  cases d with
  | timerMade => cases h
  | _ => rfl

lemma Did.Silent.errors (h : d.Silent) : errors (d :: ds) = errors ds := by
  cases d with
  | timerMade => cases h
  | polled w r =>
    cases r with
    | ready => cases h
    | pending => rfl
  | _ => rfl

lemma Did.Silent.writes (h : d.Silent) : writes (d :: ds) = writes ds := by
  cases d with
  | wrote => cases h
  | _ => rfl

lemma Did.Silent.armed (h : d.Silent) : armed (d :: ds) = armed ds := by
  cases d with
  | timerMade => cases h
  | _ => rfl

lemma Did.Silent.reached (h : d.Silent) : reached (d :: ds) = reached ds := by
  cases d with
  | polled w r =>
    cases r with
    | ready => cases h
    | pending => rfl
  | _ => rfl

lemma Did.Silent.ne_stop (h : d.Silent) (v : σ) : (.checked v (some false) : Did σ ρ) ≠ d := by
  rintro rfl
  cases h

/-- The waits for a lock are silent. -/
lemma silent_of_contended (h : ∀ d ∈ ds, d = .contended) : ∀ d ∈ ds, d.Silent := by
  intro d hd
  rw [h d hd]
  trivial

/-- Silent reports contain nothing of interest. -/
lemma silent_eq_nil (h : ∀ d ∈ ds, d.Silent) :
    samples ds = [] ∧ timers ds = [] ∧ errors ds = [] ∧ writes ds = [] ∧
      ∀ v, .checked v (some false) ∉ ds := by
  induction ds with
  | nil => exact ⟨rfl, rfl, rfl, rfl, fun _ => List.not_mem_nil⟩
  | cons d ds ih =>
    obtain ⟨hd, hds⟩ := List.forall_mem_cons.mp h
    obtain ⟨hs, ht, he, hw, hc⟩ := ih hds
    refine ⟨hd.samples.trans hs, hd.timers.trans ht, hd.errors.trans he, hd.writes.trans hw, ?_⟩
    intro v hmem
    rcases List.mem_cons.mp hmem with heq | hmem
    · exact hd.ne_stop v heq
    · exact hc v hmem

end Silent

section Contents

variable {maxInstant : ℕ} {l : Limit} {ds : List (Did σ ρ)} {deadline : ℕ} {v₀ : σ}

/-- Taking the lock is silent. -/
lemma Acquired.silent (h : Acquired ds) : ∀ d ∈ ds, d.Silent := by
  cases h with
  | locked hcs => exact List.forall_mem_cons.mpr ⟨trivial, silent_of_contended hcs⟩

/-- Before its first check a wait has requested no Timer future, and it has written nothing. -/
lemma Opened.contents (h : Opened maxInstant l deadline ds) :
    timers ds = [] ∧ errors ds = [] ∧ writes ds = [] ∧ ∀ v, .checked v (some false) ∉ ds := by
  cases h with
  | budget h =>
    obtain ⟨-, ht, he, hw, hc⟩ := silent_eq_nil h.silent
    refine ⟨ht, he, hw, fun v hmem => hc v ?_⟩
    simpa using hmem
  | instant h =>
    obtain ⟨-, ht, he, hw, hc⟩ := silent_eq_nil h.silent
    exact ⟨ht, he, hw, hc⟩
  | total h hmax =>
    obtain ⟨-, ht, he, hw, hc⟩ := silent_eq_nil h.silent
    refine ⟨?_, ?_, ?_, fun v hmem => hc v (by simpa using hmem)⟩
    · simpa [timers, List.filterMap_append] using ht
    · simpa [errors, List.filterMap_append] using he
    · simpa [writes, List.filter_append, Did.isWrite] using hw

/-- A report that does not sample the clock keeps the opening. -/
lemma Opening.cons {a : Bool} {d : Did σ ρ} (h : Opening maxInstant l deadline v₀ a ds)
    (hd : ∀ now, d ≠ .sampled now) : Opening maxInstant l deadline v₀ a (d :: ds) := by
  obtain ⟨rest, ds₀, rfl, ho, hs⟩ := h
  refine ⟨d :: rest, ds₀, rfl, ho, ?_⟩
  cases d with
  | sampled now => exact absurd rfl (hd now)
  | _ => exact hs

lemma Blocked.opening (h : Blocked maxInstant l deadline v₀ ds) :
    Opening maxInstant l deadline v₀ true ds := by
  cases h with
  | checked h => exact ⟨[], _, rfl, h, rfl⟩

lemma Blocked.contents (h : Blocked maxInstant l deadline v₀ ds) :
    timers ds = [] ∧ errors ds = [] ∧ writes ds = [] ∧ ∀ v, .checked v (some false) ∉ ds := by
  cases h with
  | checked h =>
    obtain ⟨ht, he, hw, hc⟩ := h.contents
    refine ⟨ht, he, hw, fun v hmem => hc v ?_⟩
    simpa using hmem

lemma Looping.arms {b : Bool} (h : Looping maxInstant l deadline v₀ b ds) :
    l.Arms maxInstant deadline := by
  induction h with
  | timerMade _ ha => exact ha
  | step _ _ ih => exact ih
  | reached _ ih => exact ih

lemma Looping.opening {b : Bool} (h : Looping maxInstant l deadline v₀ b ds) :
    Opening maxInstant l deadline v₀ true ds := by
  induction h with
  | timerMade h _ => exact h.opening.cons (by simp)
  | step _ hd ih =>
    refine ih.cons ?_
    rintro now rfl
    exact hd.silent
  | reached _ ih => exact ih.cons (by simp)

/-- In its loop a wait has requested one Timer future, without an error, and it has written
nothing. -/
lemma Looping.contents {b : Bool} (h : Looping maxInstant l deadline v₀ b ds) :
    timers ds = [deadline] ∧ errors ds = [] ∧ writes ds = [] ∧
      ∀ v, .checked v (some false) ∉ ds := by
  induction h with
  | timerMade h _ =>
    obtain ⟨ht, he, hw, hc⟩ := h.contents
    refine ⟨congrArg (deadline :: ·) ht, he, hw, fun v hmem => hc v ?_⟩
    simpa using hmem
  | step _ hd ih =>
    obtain ⟨ht, he, hw, hc⟩ := ih
    refine ⟨hd.silent.timers.trans ht, hd.silent.errors.trans he, hd.silent.writes.trans hw, ?_⟩
    intro v hmem
    rcases List.mem_cons.mp hmem with heq | hmem
    · exact hd.silent.ne_stop v heq
    · exact hc v hmem
  | reached _ ih =>
    obtain ⟨ht, he, hw, hc⟩ := ih
    refine ⟨ht, he, hw, fun v hmem => hc v ?_⟩
    simpa using hmem

lemma Looping.armed {b : Bool} (h : Looping maxInstant l deadline v₀ b ds) :
    armed ds = some deadline := by
  induction h with
  | timerMade => rfl
  | step _ hd ih => exact hd.silent.armed.trans ih
  | reached _ ih => exact ih

/-- A wait that knows its deadline to be reached was told so by a poll. -/
lemma Looping.mem_reached (h : Looping maxInstant l deadline v₀ true ds) :
    deadline ∈ QubitLock.reached ds := by
  generalize hb : true = b at h
  induction h with
  | timerMade => cases hb
  | step _ hd ih =>
    rw [hd.silent.reached]
    exact ih hb
  | reached h ih =>
    show deadline ∈ (QubitLock.armed _).toList ++ _
    rw [h.armed]
    exact List.mem_append_left _ (List.mem_singleton_self deadline)

lemma Failing.opening {e : TimeError} (h : Failing maxInstant l deadline v₀ e ds) :
    Opening maxInstant l deadline v₀ true ds := by
  induction h with
  | polled h => exact h.opening.cons (by simp)
  | unregistered _ ih | contended _ ih | locked _ ih => exact ih.cons (by simp)

lemma Failing.arms {e : TimeError} (h : Failing maxInstant l deadline v₀ e ds) :
    l.Arms maxInstant deadline := by
  induction h with
  | polled h => exact h.arms
  | unregistered _ ih | contended _ ih | locked _ ih => exact ih

/-- A wait whose Timer future failed has seen this one error. -/
lemma Failing.contents {e : TimeError} (h : Failing maxInstant l deadline v₀ e ds) :
    timers ds = [deadline] ∧ errors ds = [e] ∧ writes ds = [] ∧
      ∀ v, .checked v (some false) ∉ ds := by
  induction h with
  | polled h =>
    obtain ⟨ht, he, hw, hc⟩ := h.contents
    refine ⟨ht, congrArg (e :: ·) he, hw, fun v hmem => hc v ?_⟩
    simpa using hmem
  | unregistered _ ih | contended _ ih | locked _ ih =>
    obtain ⟨ht, he, hw, hc⟩ := ih
    refine ⟨ht, he, hw, fun v hmem => hc v ?_⟩
    simpa using hmem

/-- The clock is sampled at most once before the first check. -/
lemma Opened.samples_le (h : Opened maxInstant l deadline ds) : (samples ds).length ≤ 1 := by
  cases h with
  | @budget _ start _ h =>
    obtain ⟨hs, -⟩ := silent_eq_nil h.silent
    exact le_of_eq (congrArg (fun ns => (start :: ns).length) hs)
  | instant h =>
    obtain ⟨hs, -⟩ := silent_eq_nil h.silent
    simp [hs]
  | @total _ start ds₀ h =>
    obtain ⟨hs, -⟩ := silent_eq_nil h.silent
    rw [show samples (ds₀ ++ [.sampled start]) = samples ds₀ ++ [start] from
      List.filterMap_append, hs]
    simp

lemma Opening.samples_le {a : Bool} (h : Opening maxInstant l deadline v₀ a ds) :
    (samples ds).length ≤ 1 := by
  obtain ⟨rest, ds₀, rfl, ho, hs⟩ := h
  rw [show samples (rest ++ .checked v₀ (some a) :: ds₀) = samples rest ++ samples ds₀ from
    List.filterMap_append, hs]
  exact ho.samples_le

lemma Opened.frugal (h : Opened maxInstant l deadline ds) : l.Frugal maxInstant ds :=
  ⟨h.samples_le, .inl h.contents.1⟩

lemma Blocked.frugal (h : Blocked maxInstant l deadline v₀ ds) : l.Frugal maxInstant ds :=
  ⟨h.opening.samples_le, .inl h.contents.1⟩

lemma Looping.frugal {b : Bool} (h : Looping maxInstant l deadline v₀ b ds) :
    l.Frugal maxInstant ds :=
  ⟨h.opening.samples_le, .inr ⟨deadline, v₀, h.contents.1, h.opening, h.arms⟩⟩

lemma Failing.frugal {e : TimeError} (h : Failing maxInstant l deadline v₀ e ds) :
    l.Frugal maxInstant ds :=
  ⟨h.opening.samples_le, .inr ⟨deadline, v₀, h.contents.1, h.opening, h.arms⟩⟩

/-- A report that neither samples the clock nor requests a Timer future. -/
lemma Limit.Frugal.cons {d : Did σ ρ} (h : l.Frugal maxInstant ds) (hs : ∀ now, d ≠ .sampled now)
    (ht : ∀ deadline r, d ≠ .timerMade deadline r) : l.Frugal maxInstant (d :: ds) := by
  have hsamples : QubitLock.samples (d :: ds) = QubitLock.samples ds := by
    cases d with
    | sampled now => exact absurd rfl (hs now)
    | _ => rfl
  have htimers : QubitLock.timers (d :: ds) = QubitLock.timers ds := by
    cases d with
    | timerMade deadline r => exact absurd rfl (ht deadline r)
    | _ => rfl
  refine ⟨by rw [hsamples]; exact h.samples, ?_⟩
  rw [htimers]
  rcases h.timers with hnil | ⟨deadline, v₀, hone, hopen, ha⟩
  · exact .inl hnil
  · exact .inr ⟨deadline, v₀, hone, hopen.cons hs, ha⟩

lemma Acquiring.frugal {deadline : Option ℕ} (h : Acquiring maxInstant l deadline ds) :
    l.Frugal maxInstant ds := by
  cases h with
  | budget hcs | instant hcs =>
    obtain ⟨hs, ht, -⟩ := silent_eq_nil (silent_of_contended hcs)
    exact ⟨by simp [hs], .inl ht⟩
  | @total _ start cs hcs =>
    obtain ⟨hs, ht, -⟩ := silent_eq_nil (silent_of_contended hcs)
    refine ⟨?_, .inl ?_⟩
    · rw [show samples (cs ++ [.sampled start]) = samples cs ++ [start] from
        List.filterMap_append, hs]
      simp
    · rw [show timers (cs ++ [.sampled start]) = timers cs ++ [] from List.filterMap_append, ht]
      rfl

/-- The latest report of a wait that stops is its check. -/
lemma Stopped.head {v : σ} (h : Stopped maxInstant l v ds) :
    ∃ ds', ds = .checked v (some false) :: ds' := by
  cases h <;> exact ⟨_, rfl⟩

lemma Stopped.frugal {v : σ} (h : Stopped maxInstant l v ds) : l.Frugal maxInstant ds := by
  cases h with
  | first h => exact h.frugal.cons (by simp) (by simp)
  | later h => exact h.frugal.cons (by simp) (by simp)

/-- **In every phase a wait has looked at the clock at most once and requested at most one Timer
future.**

**Proof sketch.** By cases on the phase. Before the wait blocks it has looked at the clock once at most
and asked for no future; when it has blocked it has asked for one, and no later phase asks again. -/
theorem Limit.Spec.frugal {f : σ → σ × Option ρ} {a : Phase ρ} (h : l.Spec maxInstant f ds a)
    (hleft : a ≠ .left) : l.Frugal maxInstant ds := by
  cases a with
  | begun =>
    obtain rfl : ds = [] := h
    exact ⟨Nat.zero_le _, .inl rfl⟩
  | acquiring => exact Acquiring.frugal h
  | locked =>
    obtain ⟨hs, ht, -⟩ := silent_eq_nil (Acquired.silent h)
    exact ⟨by simp [hs], .inl ht⟩
  | opened => exact Opened.frugal h
  | blocked =>
    obtain ⟨-, v₀, hb⟩ := h
    exact hb.frugal
  | early =>
    obtain ⟨⟨deadline, v₀, hl⟩, -⟩ := h
    exact hl.frugal
  | looping =>
    obtain ⟨deadline, v₀, b, hl, -⟩ := h
    exact hl.frugal
  | failing =>
    obtain ⟨deadline, v₀, hf⟩ := h
    exact hf.frugal
  | stopped =>
    obtain ⟨v, hs⟩ := h
    exact hs.frugal
  | gaveUp =>
    cases h with
    | empty h => exact h.frugal
    | expired h => exact h.frugal
  | failed =>
    cases h with
    | overflow h => exact h.frugal
    | failing h => exact h.frugal
    | @refused _ deadline v₀ _ _ h ha =>
      refine ⟨h.frugal.samples, .inr ⟨deadline, v₀, ?_, h.opening.cons (by simp), ha⟩⟩
      exact congrArg (deadline :: ·) h.contents.1
  | acted =>
    obtain ⟨v, v', ds', rfl, hs⟩ := h
    exact hs.frugal.cons (by simp) (by simp)
  | overflowed =>
    cases h
    exact ⟨le_rfl, .inl rfl⟩
  | dropped => exact h.2
  | unwinding => exact h
  | left => exact absurd rfl hleft
  | never => cases h

/-- A panic of a closure or of the registry. -/
lemma Limit.Spec.unwinding {f : σ → σ × Option ρ} {a : Phase ρ} {d : Did σ ρ}
    (h : l.Spec maxInstant f ds a) (hleft : a ≠ .left) (hs : ∀ now, d ≠ .sampled now)
    (ht : ∀ deadline r, d ≠ .timerMade deadline r) :
    l.Spec maxInstant f (d :: ds) .unwinding :=
  (h.frugal hleft).cons hs ht

/-- The wait is dropped before it has run its action. -/
lemma Limit.Spec.dropped {f : σ → σ × Option ρ} {a : Phase ρ} (h : l.Spec maxInstant f ds a)
    (ha : (∃ deadline, a = .acquiring deadline) ∨ (∃ b, a = .looping b) ∨ ∃ e, a = .failing e) :
    l.Spec maxInstant f ds .dropped := by
  refine ⟨?_, h.frugal (by rcases ha with ⟨_, rfl⟩ | ⟨_, rfl⟩ | ⟨_, rfl⟩ <;> simp)⟩
  rcases ha with ⟨deadline, rfl⟩ | ⟨b, rfl⟩ | ⟨e, rfl⟩
  · cases h with
    | budget hcs | instant hcs =>
      obtain ⟨-, -, -, hw, -⟩ := silent_eq_nil (silent_of_contended hcs)
      exact hw
    | total hcs =>
      obtain ⟨-, -, -, hw, -⟩ := silent_eq_nil (silent_of_contended hcs)
      simpa [writes, List.filter_append, Did.isWrite] using hw
  · obtain ⟨deadline, v₀, b, hl, -⟩ := h
    exact hl.contents.2.2.1
  · obtain ⟨deadline, v₀, hf⟩ := h
    exact hf.contents.2.2.1

end Contents

/-! ## The contract -/

/-- What a timed wait with action `f` and predicate `p` has done that returned `out` with value `v`
at time `now`. Its first check was made on `v₀`. -/
structure Contract (maxInstant : ℕ) (l : Limit) (f : σ → σ × Option ρ) (p : σ → Bool)
    (deadline : ℕ) (v₀ : σ) (ds : List (Did σ ρ)) (out : Outcome ρ) (v : σ) (now : ℕ) : Prop where
  /-- The clock is looked at as `Opened` says, and never after the first check. -/
  opening : Opening maxInstant l deadline v₀ (p v₀) ds
  /-- A Timer future is requested only if the first check blocks, once, for the deadline. -/
  timers : timers ds = if p v₀ = true ∧ l.Arms maxInstant deadline then [deadline] else []
  /-- The wait fails before it requests a Timer future exactly if it needs a deadline that is not
  representable. -/
  overflow : (out = .timed (.error .instantOverflow) ∧ QubitLock.timers ds = []) ↔
    p v₀ = true ∧ ∃ timeout, l = .budget timeout ∧ timeout ≠ 0 ∧ maxInstant < deadline
  /-- A wait that times out still has to wait, and its budget was empty or its deadline has
  passed. -/
  timedOut : out = .timed (.ok .timedOut) → p v = true ∧ (l = .budget 0 ∨ deadline ≤ now)
  /-- A wait that is ready ran its action once, right after a check that told it to stop. -/
  ready : ∀ r, out = .timed (.ok (.ready r)) → ∃ v' rest, p v' = false ∧
    ds = .wrote f v' (some r) :: .checked v' (some false) :: rest ∧ writes rest = []
  /-- A check that tells the wait to stop makes it ready, whatever the Timer reported before. -/
  stop : ∀ v', .checked v' (some false) ∈ ds → ∃ r, out = .timed (.ok (.ready r))
  /-- An error of the Timer is returned. -/
  error : ∀ e ∈ errors ds, out = .timed (.error e)
  /-- An error that is returned was reported by the Timer, unless there is no deadline. -/
  cause : ∀ e, out = .timed (.error e) →
    e ∈ errors ds ∨ (e = .instantOverflow ∧ QubitLock.timers ds = [])
  /-- There are three results, and only one of them writes. -/
  result : (∃ r, out = .timed (.ok (.ready r))) ∨
    (out = .timed (.ok .timedOut) ∨ ∃ e, out = .timed (.error e)) ∧ writes ds = []

/-- The reports of a call agree with a pure predicate `p`. -/
def Answers (p : σ → Bool) (ds : List (Did σ ρ)) : Prop :=
  ∀ v a, .checked v a ∈ ds → a = some (p v)

section Returns

variable {maxInstant : ℕ} {l : Limit} {f : σ → σ × Option ρ} {p : σ → Bool}
  {ds : List (Did σ ρ)} {v : σ} {now : ℕ}

/-- The first check has the answer of the predicate. -/
lemma Opening.answer {deadline : ℕ} {v₀ : σ} {a : Bool}
    (h : Opening maxInstant l deadline v₀ a ds) (hp : Answers p ds) : a = p v₀ := by
  obtain ⟨rest, ds₀, rfl, -, -⟩ := h
  exact Option.some.inj (hp v₀ (some a) (List.mem_append_right _ List.mem_cons_self))

/-- A wait that has requested its Timer future has a representable deadline. -/
lemma Limit.Arms.not_overflow {deadline : ℕ} {v₀ : σ} {out : Outcome ρ}
    (ha : l.Arms maxInstant deadline) (ht : timers ds = [deadline]) :
    (out = .timed (.error .instantOverflow) ∧ timers ds = []) ↔
      p v₀ = true ∧ ∃ timeout, l = .budget timeout ∧ timeout ≠ 0 ∧ maxInstant < deadline := by
  refine iff_of_false (fun hc => by simp [ht] at hc) ?_
  rintro ⟨-, timeout, rfl, -, hmax⟩
  exact absurd ha.2 (Nat.not_le_of_lt hmax)

/-- **A wait that gives up keeps the contract.**

**Proof sketch.** A wait gives up with an empty budget after its first check, or when its future was
ready and its last check still answered `true`. In both cases the last check saw the value that is
returned, and in the second the deadline has passed. -/
theorem contract_gaveUp (h : GaveUp maxInstant l ds) (hp : Answers p ds)
    (hv : ∀ v', seen ds = some v' → v = v') (hnow : ∀ deadline ∈ reached ds, deadline ≤ now) :
    ∃ deadline v₀, Contract maxInstant l f p deadline v₀ ds (.timed (.ok .timedOut)) v now := by
  cases h with
  | @empty deadline v₀ _ h =>
    obtain ⟨ht, he, hw, hc⟩ := h.contents
    have hfirst := h.opening.answer hp
    have hopen := h.opening
    rw [hfirst] at hopen
    refine ⟨deadline, v₀, hopen, ?_, ?_, ?_, ?_, ?_, ?_, ?_, ?_⟩
    · simp [ht, Limit.Arms]
    · simp
    · intro _
      refine ⟨?_, .inl rfl⟩
      cases h with
      | checked => rw [hv v₀ rfl, ← hfirst]
    · simp
    · exact fun v' hmem => absurd hmem (hc v')
    · simp [he]
    · simp
    · exact .inr ⟨.inl rfl, hw⟩
  | @expired _ deadline v₀ _ h hd =>
    obtain ⟨ht, he, hw, hc⟩ := h.contents
    have hfirst := h.opening.answer hp
    have hopen := h.opening
    rw [hfirst] at hopen
    obtain ⟨v', hseen, hmem⟩ := hd
    refine ⟨deadline, v₀, hopen, ?_, ?_, ?_, ?_, ?_, ?_, ?_, ?_⟩
    · rw [ht, if_pos ⟨hfirst.symm, h.arms⟩]
    · exact h.arms.not_overflow ht
    · intro _
      refine ⟨?_, .inr (hnow deadline h.mem_reached)⟩
      rw [hv v' hseen]
      exact (Option.some.inj (hp v' _ hmem)).symm
    · simp
    · exact fun v' hmem => absurd hmem (hc v')
    · simp [he]
    · simp
    · exact .inr ⟨.inl rfl, hw⟩

/-- **A wait that fails keeps the contract.**

**Proof sketch.** A wait fails when its deadline is not representable, when the Timer refuses the
future, or when the future completes with an error. In each case what happened before is known, in
particular whether a future was requested. -/
theorem contract_failed {e : TimeError} (h : Failed maxInstant l e ds) (hp : Answers p ds) :
    ∃ deadline v₀, Contract maxInstant l f p deadline v₀ ds (.timed (.error e)) v now := by
  cases h with
  | @overflow timeout deadline v₀ _ h ht hmax =>
    obtain ⟨htimers, he, hw, hc⟩ := h.contents
    have hfirst := h.opening.answer hp
    have hopen := h.opening
    rw [hfirst] at hopen
    refine ⟨deadline, v₀, hopen, ?_, ?_, ?_, ?_, ?_, ?_, ?_, ?_⟩
    · rw [htimers, if_neg fun hc => absurd hc.2.2 (Nat.not_le_of_lt hmax)]
    · exact iff_of_true ⟨rfl, htimers⟩ ⟨hfirst.symm, timeout, rfl, ht, hmax⟩
    · simp
    · simp
    · exact fun v' hmem => absurd hmem (hc v')
    · simp [he]
    · intro e he
      cases he
      exact .inr ⟨rfl, htimers⟩
    · exact .inr ⟨.inr ⟨_, rfl⟩, hw⟩
  | @refused _ deadline v₀ _ ds₀ h ha =>
    obtain ⟨htimers, he, hw, hc⟩ := h.contents
    have hopen : Opening maxInstant l deadline v₀ true (.timerMade deadline (.error e) :: ds₀) :=
      h.opening.cons (by simp)
    have hfirst := hopen.answer hp
    rw [hfirst] at hopen
    have htimer : timers (.timerMade deadline (.error e) :: ds₀) = [deadline] :=
      congrArg (deadline :: ·) htimers
    have herror : errors (.timerMade deadline (.error e) :: ds₀) = [e] := congrArg (e :: ·) he
    refine ⟨deadline, v₀, hopen, ?_, ?_, ?_, ?_, ?_, ?_, ?_, ?_⟩
    · rw [htimer, if_pos ⟨hfirst.symm, ha⟩]
    · exact ha.not_overflow htimer
    · simp
    · simp
    · exact fun v' hmem => absurd (by simpa using hmem) (hc v')
    · simp [herror]
    · intro e' he'
      cases he'
      exact .inl (by simp [herror])
    · exact .inr ⟨.inr ⟨_, rfl⟩, hw⟩
  | @failing _ deadline v₀ _ _ h =>
    obtain ⟨htimer, herror, hw, hc⟩ := h.contents
    have hfirst := h.opening.answer hp
    have hopen := h.opening
    rw [hfirst] at hopen
    refine ⟨deadline, v₀, hopen, ?_, ?_, ?_, ?_, ?_, ?_, ?_, ?_⟩
    · rw [htimer, if_pos ⟨hfirst.symm, h.arms⟩]
    · exact h.arms.not_overflow htimer
    · simp
    · simp
    · exact fun v' hmem => absurd hmem (hc v')
    · simp [herror]
    · intro e' he'
      cases he'
      exact .inl (by simp [herror])
    · exact .inr ⟨.inr ⟨_, rfl⟩, hw⟩

/-- **A wait that ran its action keeps the contract.**

**Proof sketch.** The action follows a check that answered `false`: the first one, before any request,
or one after a suspension, when the future had been requested. -/
theorem contract_acted {v' : σ} {r : ρ} (h : Stopped maxInstant l v' ds)
    (hp : Answers p (.wrote f v' (some r) :: ds)) :
    ∃ deadline v₀, Contract maxInstant l f p deadline v₀ (.wrote f v' (some r) :: ds)
      (.timed (.ok (.ready r))) v now := by
  have hanswer : ∀ {a}, .checked v' (some a) ∈ ds → a = p v' := fun hmem =>
    Option.some.inj (hp v' _ (List.mem_cons_of_mem _ hmem))
  cases h with
  | @first deadline ds₀ h =>
    obtain ⟨htimers, he, hw, hc⟩ := h.contents
    have hfalse : false = p v' := hanswer List.mem_cons_self
    refine ⟨deadline, v', ?_, ?_, ?_, ?_, ?_, ?_, ?_, ?_, ?_⟩
    · rw [← hfalse]
      exact ⟨[.wrote f v' (some r)], ds₀, rfl, h, rfl⟩
    · rw [if_neg fun hc => by simp [← hfalse] at hc]
      exact htimers
    · exact iff_of_false (by simp) fun hc => by simp [← hfalse] at hc
    · simp
    · intro r' hr'
      cases hr'
      exact ⟨v', ds₀, hfalse.symm, rfl, hw⟩
    · exact fun _ _ => ⟨r, rfl⟩
    · intro e hmem
      rw [show errors (.wrote f v' (some r) :: .checked v' (some false) :: ds₀) = [] from he]
        at hmem
      cases hmem
    · simp
    · exact .inl ⟨r, rfl⟩
  | @later deadline v₀ _ ds₀ h =>
    obtain ⟨htimers, he, hw, hc⟩ := h.contents
    have hfalse : false = p v' := hanswer List.mem_cons_self
    have hopen : Opening maxInstant l deadline v₀ true
        (.wrote f v' (some r) :: .checked v' (some false) :: ds₀) :=
      (h.opening.cons (by simp)).cons (by simp)
    have hfirst := hopen.answer hp
    rw [hfirst] at hopen
    refine ⟨deadline, v₀, hopen, ?_, ?_, ?_, ?_, ?_, ?_, ?_, ?_⟩
    · rw [if_pos ⟨hfirst.symm, h.arms⟩]
      exact htimers
    · exact h.arms.not_overflow htimers
    · simp
    · intro r' hr'
      cases hr'
      exact ⟨v', ds₀, hfalse.symm, rfl, hw⟩
    · exact fun _ _ => ⟨r, rfl⟩
    · intro e hmem
      rw [show errors (.wrote f v' (some r) :: .checked v' (some false) :: ds₀) = [] from he]
        at hmem
      cases hmem
    · simp
    · exact .inl ⟨r, rfl⟩

end Returns

section Run

variable {Pc Choice Tid Call : Type} [DecidableEq Tid] {P : Program σ ρ Pc Choice}
  (T : P.Typed Tid) {s₀ : Setup σ} {tr : List (Program.Label σ ρ Choice Tid)}
  {c : Threads.Conf (Mem σ Tid) Tid Pc} {called : Choice → Option Call} {t : Tid}

include T in
/-- The checks of a call have the answers of its predicate. -/
theorem Calls.answers (C : Calls P Call) {condition : Call → Option (Condition σ ρ)}
    (hcheck : ∀ {p v a p' o}, (P.code p).Reports (.checked v a) p' → C.At o p →
      ∃ w n, condition o = some w ∧ a = w.waiting n v)
    (h : P.Run s₀ tr c) (t : Tid) :
    C.User (c.pc t) ∨ ∃ o, lastCall C.called tr t = some o ∧ C.At o (c.pc t) ∧
      ∀ w p, condition o = some w → w.Pure p → Answers p (since C.called tr t) := by
  refine C.conduct T
    (V := fun o ds _ => ∀ w p, condition o = some w → w.Pure p → Answers p ds) ?_ ?_ ?_ h t
  · intro p x p' o hj hx w q hw hq v a hmem
    cases hmem
  · intro p x p' o ds hj hx hat hv
    exact hv
  · intro p d p' o ds hr hat hv w q hw hq v a hmem
    rcases List.mem_cons.mp hmem with rfl | hmem
    · obtain ⟨w', n, hw', ha⟩ := hcheck hr hat
      rw [hw] at hw'
      cases hw'
      rw [ha, hq n v]
    · exact hv w q hw hq v a hmem

omit [DecidableEq Tid] in
/-- A Timer was honest before if it is honest. -/
lemma Honest.of_suffix {past : List (Program.Label σ ρ Choice Tid)} (h : Honest tr)
    (hs : past <:+ tr) : Honest past :=
  fun t deadline now hmem => h t deadline now (hs.subset hmem)

/-- **A timed wait that is about to return with the lock keeps the contract**, in every run with an
honest Timer.

**Proof sketch.** By the outcome. What the phases leave open is filled in from the run: the action got
the value of the last check (`wrote_eq_seen`), the returned value is that of the last check
(`value_eq_seen`), and a reached deadline has passed (`reached_le`). -/
theorem Program.Typed.contract (h : P.Run s₀ tr c) (hh : Honest tr)
    (hheld : (T.typ (c.pc t)).holds = true) {maxInstant : ℕ} {l : Limit} {f : σ → σ × Option ρ}
    {p : σ → Bool} {out : Outcome ρ}
    (hspec : l.Spec maxInstant f (since called tr t) (returning out))
    (hp : Answers p (since called tr t)) :
    ∃ deadline v₀, Contract maxInstant l f p deadline v₀ (since called tr t) out c.mem.value
      c.mem.clock := by
  cases out with
  | timed r =>
    rcases r with e | r | _
    · exact contract_failed hspec hp
    · obtain ⟨v, v', ds, hds, hstop⟩ := hspec
      have hseen : seen ds = some v' := by
        obtain ⟨ds', rfl⟩ := hstop.head
        rfl
      have hsuffix : .wrote f v (some r) :: ds <:+ since called tr t := by rw [hds]
      obtain rfl : v = v' := T.wrote_eq_seen h hsuffix hseen
      rw [hds] at hp ⊢
      exact contract_acted hstop hp
    · exact contract_gaveUp hspec hp (fun v' => T.value_eq_seen h hheld) (T.reached_le h hh t)
  | _ => cases hspec

end Run

end QubitLock
