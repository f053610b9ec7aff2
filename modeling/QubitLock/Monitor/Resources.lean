import QubitLock.Library.Threads
import QubitLock.Monitor.Memory

set_option relaxedAutoImplicit false
set_option autoImplicit false

/-!
# What a thread of a monitor owns

A thread in the middle of an operation owns some of: the occupied guard slot, the Timer future of
its call, a registration object, a waiter object, and the waiters that its notification has taken
and still has to signal. `Res` records them and `Res.Step` says how each report changes them.
A program over the primitives is *typed* when each program counter determines the resources of
its thread and every primitive follows `Res.Step`.

The typing is static: `Cmd.Checks` looks at a primitive and the types of its continuations only.

## Main definitions

* `Res`, `Res.Step` — resources and their change by a report.
* `Cmd.Checks` — a primitive is well typed.
* `Condition` — the closures of a predicate wait.
* `Program`, `Program.Run` — code over the primitives and its runs.
* `Program.Typed` — a typed program.

## Main results

* `Cmd.Checks.step` — the static typing is sound.
-/

namespace QubitLock

/-- The resources of a thread. -/
structure Res where
  /-- The guard slot is occupied. -/
  holds : Bool
  /-- The call has a Timer future. -/
  timer : Bool
  /-- The registration object. -/
  reg : Option Registration
  /-- The waiter object, kept after its registration until the last poll with its waker. -/
  waiter : Option ℕ
  /-- The taken waiters that are still to be signalled. -/
  sig : List ℕ

namespace Res

/-- Between operations a thread owns nothing. -/
def idle : Res := ⟨false, false, none, none, []⟩

/-- User code that holds a monitor guard. -/
def guard : Res := { idle with holds := true }

/-- `r'` is `r`, perhaps without the knowledge of a Timer future, and without a waiter object that
is no longer registered. -/
@[mk_iff]
structure Forgets (r r' : Res) : Prop where
  holds : r'.holds = r.holds
  reg : r'.reg = r.reg
  sig : r'.sig = r.sig
  timer : r'.timer = true → r.timer = true
  waiter : ∀ a, r'.waiter = some a → r.waiter = some a
  waiter_of_reg : ∀ g, r'.reg = some g → r'.waiter = r.waiter

section Step

variable {σ ρ : Type}

/-- What a report needs of the resources of its thread. -/
def Needs (r : Res) : Did σ ρ → Prop
  | .locked => r.holds = false ∧ r.reg = none
  | .contended => r.holds = false ∧ r.reg = none
  | .unlocked => r.holds = true
  | .slotEmpty => False
  | .checked _ _ => r.holds = true ∧ r.reg = none
  | .didRead _ _ => r.holds = true ∧ r.reg = none
  | .wrote _ _ _ => r.holds = true ∧ r.reg = none
  | .polled w _ => r.timer = true ∧ ∀ a, w = .waiter a → r.waiter = some a
  | .registered _ => r.holds = true ∧ r.reg = none
  | .woke a => r.holds = false ∧ ∃ g, r.reg = some g ∧ g.waiter = a
  | .notified a _ => r.holds = false ∧ ∃ g, r.reg = some g ∧ g.waiter = a
  | .unregistered i _ => ∃ g, r.reg = some g ∧ g.waiterId = i
  | .tookOne _ => r.holds = false ∧ r.reg = none ∧ r.sig = []
  | .tookAll _ => r.holds = false ∧ r.reg = none ∧ r.sig = []
  | .signalled a => r.sig.head? = some a
  | .returned _ _ _ => r.reg = none ∧ r.sig = []
  | .guardReturned _ _ _ => r.holds = true ∧ r.reg = none ∧ r.sig = []
  | .unwound => r.reg = none ∧ r.sig = []
  | _ => True

/-- The resources after a report. -/
def after (r : Res) : Did σ ρ → Res
  | .locked => { r with holds := true }
  | .unlocked => { r with holds := false }
  | .timerMade _ (.ok _) => { r with timer := true }
  | .registered (some g) => { r with reg := some g, waiter := some g.waiter }
  | .unregistered _ _ => { r with reg := none }
  | .tookOne e => { r with sig := e.toList.map Registration.waiter }
  | .tookAll es => { r with sig := es.map Registration.waiter }
  | .signalled _ => { r with sig := r.sig.tail }
  | .returned _ _ _ => idle
  | .guardReturned _ _ _ => guard
  | .unwound => idle
  | _ => r

/-- The guard slot after a report. -/
lemma after_holds (r : Res) (d : Did σ ρ) :
    (r.after d).holds = match d with
      | .locked => true
      | .unlocked => false
      | .returned _ _ _ => false
      | .guardReturned _ _ _ => true
      | .unwound => false
      | _ => r.holds := by
  cases d with
  | timerMade _ r => cases r <;> rfl
  | registered g => cases g <;> rfl
  | _ => rfl

/-- The Timer future after a report. -/
lemma after_timer (r : Res) (d : Did σ ρ) :
    (r.after d).timer = match d with
      | .timerMade _ (.ok _) => true
      | .returned _ _ _ => false
      | .guardReturned _ _ _ => false
      | .unwound => false
      | _ => r.timer := by
  cases d with
  | timerMade _ r => cases r <;> rfl
  | registered g => cases g <;> rfl
  | _ => rfl

/-- The registration object after a report. -/
lemma after_reg (r : Res) (d : Did σ ρ) :
    (r.after d).reg = match d with
      | .registered (some g) => some g
      | .unregistered _ _ => none
      | .returned _ _ _ => none
      | .guardReturned _ _ _ => none
      | .unwound => none
      | _ => r.reg := by
  cases d with
  | timerMade _ r => cases r <;> rfl
  | registered g => cases g <;> rfl
  | _ => rfl

/-- The waiter object after a report. -/
lemma after_waiter (r : Res) (d : Did σ ρ) :
    (r.after d).waiter = match d with
      | .registered (some g) => some g.waiter
      | .returned _ _ _ => none
      | .guardReturned _ _ _ => none
      | .unwound => none
      | _ => r.waiter := by
  cases d with
  | timerMade _ r => cases r <;> rfl
  | registered g => cases g <;> rfl
  | _ => rfl

/-- The pending signals after a report. -/
lemma after_sig (r : Res) (d : Did σ ρ) :
    (r.after d).sig = match d with
      | .tookOne e => e.toList.map Registration.waiter
      | .tookAll es => es.map Registration.waiter
      | .signalled _ => r.sig.tail
      | .returned _ _ _ => []
      | .guardReturned _ _ _ => []
      | .unwound => []
      | _ => r.sig := by
  cases d with
  | timerMade _ r => cases r <;> rfl
  | registered g => cases g <;> rfl
  | _ => rfl

/-- The change of the resources by a report. -/
def Step (r : Res) (d : Did σ ρ) (r' : Res) : Prop :=
  r.Needs d ∧ (r.after d).Forgets r'

end Step

/-- Forgetting nothing. -/
lemma Forgets.refl (r : Res) : r.Forgets r :=
  ⟨rfl, rfl, rfl, id, fun _ => id, fun _ _ => rfl⟩

end Res

/-! ## Static typing of primitives -/

section Checks

variable {σ ρ K Tid : Type}

/-- A primitive is well typed at resources `r`: whatever it may report, the resources of the
continuation follow. -/
def Cmd.Checks (typ : K → Res) (r : Res) (c : Cmd σ ρ K) : Prop :=
  ∀ d k, c.Reports d k → r.Step d (typ k)

/-- A well typed primitive never finds the guard slot empty. -/
lemma Cmd.Checks.ne_slotEmpty {typ : K → Res} {r : Res} {c : Cmd σ ρ K} (hc : c.Checks typ r)
    {m : Mem σ Tid} {t : Tid} {fault : Option TimeError} {d : Did σ ρ} {k : K}
    (hslot : m.slot t = r.holds) (h : c.fire m t fault = some (d, k)) : d ≠ .slotEmpty := by
  rintro rfl
  obtain ⟨hempty, hr⟩ := fire_slotEmpty h
  have hholds : r.holds = true := by
    obtain ⟨k', hk⟩ | ⟨v, a, k', hk⟩ | ⟨v, a, k', hk⟩ | ⟨f, v, a, k', hk⟩ := hr
    · exact (hc _ _ hk).1
    · exact (hc _ _ hk).1.1
    · exact (hc _ _ hk).1.1
    · exact (hc _ _ hk).1.1
  rw [hslot, hholds] at hempty
  cases hempty

/-- **Soundness of the static typing**: a well typed primitive that fires in a memory which agrees
with the resources is a typing step. -/
lemma Cmd.Checks.step {typ : K → Res} {r : Res} {c : Cmd σ ρ K} (hc : c.Checks typ r)
    {m : Mem σ Tid} {t : Tid} {fault : Option TimeError} {d : Did σ ρ} {k : K}
    (hslot : m.slot t = r.holds) (h : c.fire m t fault = some (d, k)) : r.Step d (typ k) :=
  hc _ _ (fire_reports h (hc.ne_slotEmpty hslot h))

end Checks

/-! ## Programs over the primitives -/

/-- The closures of a predicate wait: the predicate `waiting`, whose answer may depend on the
number of earlier evaluations, and the action `f`. -/
structure Condition (σ ρ : Type) where
  waiting : ℕ → σ → Option Bool
  f : σ → σ × Option ρ

/-- A condition with a pure predicate `p` that never panics. -/
def Condition.Pure {σ ρ : Type} (w : Condition σ ρ) (p : σ → Bool) : Prop :=
  ∀ n v, w.waiting n v = some (p v)

/-- A condition with a pure predicate that may panic: the answer depends on the value alone. -/
def Condition.Steady {σ ρ : Type} (w : Condition σ ρ) : Prop :=
  ∀ n v, w.waiting n v = w.waiting 0 v

/-- The closures of a wait for readiness: it waits while `ready` answers `false`
(`wait_until` and its timed variants). -/
def Condition.ofReady {σ ρ : Type} (ready : ℕ → σ → Option Bool) (f : σ → σ × Option ρ) :
    Condition σ ρ :=
  ⟨fun n v => (ready n v).map (!·), f⟩

/-- The two notifications. -/
inductive Notify where
  | one
  | all
  deriving DecidableEq

/-- A program: the primitive at each program counter, the choices that its user or its executor
can make, and where a thread starts. -/
structure Program (σ ρ Pc Choice : Type) where
  code : Pc → Cmd σ ρ Pc
  jump : Pc → Choice → Option Pc
  idle : Pc

/-- A fresh monitor: the protected value, the time of its clock, and whether its state mutex
records poisoning. -/
structure Setup (σ : Type) where
  value : σ
  clock : ℕ
  poisons : Bool

/-- The labels of the runs of a program. -/
abbrev Program.Label (σ ρ Choice Tid : Type) :=
  Threads.Label Tid (Did σ ρ) Choice (TimerDid Tid)

namespace Program

variable {σ ρ Pc Choice Tid : Type} [DecidableEq Tid]

/-- The threads of a program. -/
def threads (P : Program σ ρ Pc Choice) :
    Threads (Mem σ Tid) Tid Pc (Option TimeError) (Did σ ρ) Choice (TimerEvent Tid)
      (TimerDid Tid) where
  fire m t fault p := (P.code p).fire m t fault
  effect m t d := m.effect t d
  jump := P.jump
  ambient m e := m.timer e

omit [DecidableEq Tid] in
/-- The start of a program on a fresh monitor. -/
def start (P : Program σ ρ Pc Choice) (s₀ : Setup σ) : Threads.Conf (Mem σ Tid) Tid Pc :=
  ⟨.init s₀.poisons s₀.value s₀.clock, fun _ => P.idle⟩

/-- The runs of a program on a fresh monitor. -/
abbrev Run (P : Program σ ρ Pc Choice) (s₀ : Setup σ) (tr : List (Label σ ρ Choice Tid))
    (c : Threads.Conf (Mem σ Tid) Tid Pc) : Prop :=
  P.threads.Run (P.start s₀) tr c

end Program

variable {σ ρ Pc Choice Tid : Type} [DecidableEq Tid]

/-- A memory agrees with the resources of a thread on its guard slot. -/
def SlotAgrees (m : Mem σ Tid) (t : Tid) (r : Res) : Prop := m.slot t = r.holds

/-- A typed program: its program counters determine the resources of the thread. -/
structure Program.Typed (P : Program σ ρ Pc Choice) (Tid : Type) [DecidableEq Tid] extends
    (@threads σ ρ Pc Choice Tid _ P).Typing Res SlotAgrees Res.Step where
  typ_idle : typ P.idle = .idle

/-- A program whose primitives are all well typed is typed. -/
def Program.Typed.ofChecks {P : Program σ ρ Pc Choice} (typ : Pc → Res)
    (hidle : typ P.idle = .idle) (hcode : ∀ p, (P.code p).Checks typ (typ p))
    (hjump : ∀ {p x p'}, P.jump p x = some p' → typ p' = typ p) : P.Typed Tid where
  typ := typ
  fire_next hag hf := Cmd.Checks.step (hcode _) hag hf
  jump_typ := hjump
  typ_idle := hidle

end QubitLock
