import QubitLock.Library.Refinement
import QubitLock.Monitor.Resources

set_option relaxedAutoImplicit false
set_option autoImplicit false

/-!
# Clients of a monitor

Code on top of a monitor makes one call and, depending on what it returns, a notification after it:
`push` of a bounded queue waits for room, and notifies if it has added its item. This file executes
such a client as a program over the same primitives. Between its two calls it holds nothing, and other
threads may do what they like.

A client does nothing to the monitor but its calls, so every run of it is a run of the program of the
monitor, in which the users make these calls. What holds of all users of a monitor holds of its
clients.

## Main definitions

* `Cmd.within` — a primitive of a call, executed for a client.
* `Client` — the calls of a client; `Client.program` — the client as a program.
* `Client.outer`, `Client.outerTrace` — a run of a client seen as one of the monitor.

## Main results

* `Client.run` — a run of a client is a run of the monitor.
-/

namespace QubitLock

variable {σ ρ K L Pc Choice Tid Op : Type}

/-- A primitive of a call that a client makes: the client goes on at `ret` when the call returns, and
at `panic` when a panic leaves it. -/
def Cmd.within (f : K → L) (ret : Outcome ρ → L) (panic : L) : Cmd σ ρ K → Cmd σ ρ L
  | .lock k => .lock (f k)
  | .tryLock k => .tryLock fun b => f (k b)
  | .releaseGuard k => .releaseGuard fun b => f (k b)
  | .check q k => .check q fun b => f (k b)
  | .read g k => .read g fun r => f (k r)
  | .write g k => .write g fun r => f (k r)
  | .now k => .now fun n => f (k n)
  | .timerAt deadline k => .timerAt deadline fun r => f (k r)
  | .pollTimer w k => .pollTimer w fun r => f (k r)
  | .register k => .register fun g => f (k g)
  | .park a k => .park a (f k)
  | .pollNotified a k => .pollNotified a fun b => f (k b)
  | .unregister i k => .unregister i (f k)
  | .takeOne k => .takeOne fun a => f (k a)
  | .takeAll k => .takeAll fun as => f (k as)
  | .signal a k => .signal a (f k)
  | .isPoisoned k => .isPoisoned fun b => f (k b)
  | .clearPoison k => .clearPoison (f k)
  | .ret out _ => .ret out (ret out)
  | .retGuard out k => .retGuard out (f k)
  | .unwind _ => .unwind panic
  | .suspend => .suspend

/-- Where a client goes on after a report. -/
def Did.continues (f : K → L) (ret : Outcome ρ → L) (panic : L) (d : Did σ ρ) (k : K) : L :=
  match d with
  | .returned out _ _ => ret out
  | .unwound => panic
  | _ => f k

/-- A call goes on until it returns or panics. -/
lemma Did.continues_of_ne {f : K → L} {ret : Outcome ρ → L} {panic : L} {d : Did σ ρ} {k : K}
    (hret : ∀ out v now, d ≠ .returned out v now) (hpanic : d ≠ .unwound) :
    d.continues f ret panic k = f k := by
  cases d with
  | returned out v now => exact absurd rfl (hret out v now)
  | unwound => exact absurd rfl hpanic
  | _ => rfl

/-- **A primitive does for a client what it does for any caller.** -/
lemma Cmd.fire_within (f : K → L) (ret : Outcome ρ → L) (panic : L) (m : Mem σ Tid) (t : Tid)
    (fault : Option TimeError) (c : Cmd σ ρ K) :
    (c.within f ret panic).fire m t fault =
      (c.fire m t fault).map fun (d, k) => (d, d.continues f ret panic k) := by
  cases c with
  | lock | tryLock | releaseGuard | check | read | write | park =>
    simp only [within, fire, Mem.recover_lockState]
    split <;> rfl
  | timerAt | register =>
    simp only [within, fire]
    split <;> rfl
  | pollTimer w k =>
    simp only [within, fire, Option.map_map]
    rfl
  | _ => rfl

/-- The calls of a client: the first one of an operation, and the notification after it, depending on
what it returned. -/
structure Client (P : Program σ ρ Pc Choice) (Op : Type) where
  first : Op → Choice
  after : Op → Outcome ρ → Option Notify
  notify : Notify → Choice
  /-- The calls of the monitor return to where a thread starts. -/
  returns : ∀ {p out k}, P.code p = .ret out k → k = P.idle
  /-- So does a panic. -/
  unwinds : ∀ {p k}, P.code p = .unwind k → k = P.idle

/-- The program counters of a client. -/
inductive ClientPc (Pc Op : Type) where
  /-- No operation. -/
  | idle
  /-- Inside the first call of an operation. -/
  | within (o : Op) (p : Pc)
  /-- Before the notification. -/
  | ready (o : Op) (n : Notify)
  /-- Inside the notification. -/
  | notifying (o : Op) (p : Pc)

/-- What happens next in a client. -/
inductive ClientChoice (Op : Type) where
  /-- An operation is called. -/
  | op (o : Op)
  /-- The operation goes on to its notification. -/
  | notify (n : Notify)

namespace Client

variable {P : Program σ ρ Pc Choice} (C : Client P Op)

/-- Where an operation goes on after its first call. -/
def resume (o : Op) (out : Outcome ρ) : ClientPc Pc Op :=
  match C.after o out with
  | none => .idle
  | some n => .ready o n

/-- The code of a client. -/
def code : ClientPc Pc Op → Cmd σ ρ (ClientPc Pc Op)
  | .idle | .ready _ _ => .suspend
  | .within o p => (P.code p).within (.within o) (C.resume o) .idle
  | .notifying o p => (P.code p).within (.notifying o) (fun _ => .idle) .idle

/-- The choices of a client. -/
def jump : ClientPc Pc Op → ClientChoice Op → Option (ClientPc Pc Op)
  | .idle, .op o => (P.jump P.idle (C.first o)).map (.within o)
  | .ready o n, .notify n' => if n' = n then (P.jump P.idle (C.notify n)).map (.notifying o) else none
  | _, _ => none

/-- The client as a program. -/
def program : Program σ ρ (ClientPc Pc Op) (ClientChoice Op) := ⟨C.code, C.jump, .idle⟩

/-- The place of a client in the program of the monitor. -/
def outer (P : Program σ ρ Pc Choice) : ClientPc Pc Op → Pc
  | .idle | .ready _ _ => P.idle
  | .within _ p | .notifying _ p => p

/-- The call that a choice of a client makes. -/
def calls : ClientChoice Op → Choice
  | .op o => C.first o
  | .notify n => C.notify n

/-- The trace of a client, as one of the monitor. -/
def outerTrace (tr : List (Program.Label σ ρ (ClientChoice Op) Tid)) :
    List (Program.Label σ ρ Choice Tid) :=
  tr.filterMap (Threads.Label.view some (fun x => some (C.calls x)) some)

/-- A configuration of a client, as one of the monitor. -/
def outerConf (P : Program σ ρ Pc Choice) (c : Threads.Conf (Mem σ Tid) Tid (ClientPc Pc Op)) :
    Threads.Conf (Mem σ Tid) Tid Pc :=
  c.map id (outer P)

/-- **What a client can do**: it executes a primitive of its current call. -/
lemma fire_cases {m : Mem σ Tid} {t : Tid} {fault : Option TimeError} {p p' : ClientPc Pc Op}
    {d : Did σ ρ} (h : (C.code p).fire m t fault = some (d, p')) :
    (∃ o q k, p = .within o q ∧ (P.code q).fire m t fault = some (d, k) ∧
      p' = d.continues (.within o) (C.resume o) .idle k) ∨
    ∃ o q k, p = .notifying o q ∧ (P.code q).fire m t fault = some (d, k) ∧
      p' = d.continues (.notifying o) (fun _ => .idle) .idle k := by
  cases p with
  | idle => cases h
  | ready => cases h
  | within o q =>
    simp only [code, Cmd.fire_within, Option.map_eq_some_iff, Prod.mk.injEq] at h
    obtain ⟨⟨d', k⟩, hf, rfl, rfl⟩ := h
    exact .inl ⟨o, q, k, rfl, hf, rfl⟩
  | notifying o q =>
    simp only [code, Cmd.fire_within, Option.map_eq_some_iff, Prod.mk.injEq] at h
    obtain ⟨⟨d', k⟩, hf, rfl, rfl⟩ := h
    exact .inr ⟨o, q, k, rfl, hf, rfl⟩

include C in
/-- A call that returns or panics leads back to where a thread starts. -/
lemma eq_idle_of_fire {m : Mem σ Tid} {t : Tid} {fault : Option TimeError} {q k : Pc} {d : Did σ ρ}
    (h : (P.code q).fire m t fault = some (d, k))
    (hd : (∃ out v now, d = .returned out v now) ∨ d = .unwound) : k = P.idle := by
  have hr : (P.code q).Reports d k := by
    refine Cmd.fire_reports h ?_
    rcases hd with ⟨out, v, now, rfl⟩ | rfl <;> simp
  rcases hd with ⟨out, v, now, rfl⟩ | rfl
  all_goals
    generalize hc : P.code q = c at hr
    cases hr
  · exact C.returns hc
  · exact C.unwinds hc

include C in
/-- The place of a client after a report is the one of the monitor. -/
lemma outer_continues {m : Mem σ Tid} {t : Tid} {fault : Option TimeError} {q k : Pc} {d : Did σ ρ}
    {f : Pc → ClientPc Pc Op} {ret : Outcome ρ → ClientPc Pc Op}
    (h : (P.code q).fire m t fault = some (d, k)) (hf : ∀ p, outer P (f p) = p)
    (hret : ∀ out, outer P (ret out) = P.idle) : outer P (d.continues f ret .idle k) = k := by
  cases d with
  | returned out v now =>
    rw [C.eq_idle_of_fire h (.inl ⟨out, v, now, rfl⟩)]
    exact hret out
  | unwound =>
    rw [C.eq_idle_of_fire h (.inr rfl)]
    rfl
  | _ => exact hf k

/-- After its first call an operation is outside the monitor. -/
lemma outer_resume (o : Op) (out : Outcome ρ) : outer P (C.resume o out) = P.idle := by
  unfold resume
  split <;> rfl

variable [DecidableEq Tid]

/-- The obligations of the refinement.

**Proof sketch.** A step of the client is a step of the program at the place that it embeds, and when
that step ends an operation the client goes on to the notification or hands the result out, which the
program does not see. A choice of the client is the call that it makes. -/
lemma refines (s₀ : Setup σ) :
    Threads.Refines C.program.threads P.threads
      (C.program.start s₀ : Threads.Conf (Mem σ Tid) Tid (ClientPc Pc Op)) id (outer P) some
      (fun x => some (C.calls x)) some := by
  refine ⟨?_, ?_, ?_⟩
  · intro tr m pc t fault d p hr hf
    refine .inr ⟨fault, d, rfl, ?_, rfl⟩
    rcases C.fire_cases hf with ⟨o, q, k, hq, hk, rfl⟩ | ⟨o, q, k, hq, hk, rfl⟩
    · rw [hq, C.outer_continues hk (fun _ => rfl) (C.outer_resume o)]
      exact hk
    · rw [hq, C.outer_continues hk (fun _ => rfl) fun _ => rfl]
      exact hk
  · intro p x p' hj
    refine .inr ⟨C.calls x, rfl, ?_⟩
    cases p with
    | idle =>
      cases x with
      | op o =>
        simp only [program, Program.threads, jump, Option.map_eq_some_iff] at hj
        obtain ⟨q, hq, rfl⟩ := hj
        exact hq
      | notify n => cases hj
    | ready o n =>
      cases x with
      | op o => cases hj
      | notify n' =>
        simp only [program, Program.threads, jump, Option.ite_none_right_eq_some,
          Option.map_eq_some_iff] at hj
        obtain ⟨rfl, q, hq, rfl⟩ := hj
        exact hq
    | within | notifying => cases x <;> cases hj
  · intro m e m' b he
    exact .inr ⟨e, b, rfl, he⟩

/-- **A run of a client is a run of the monitor.** -/
theorem run {s₀ : Setup σ} {tr : List (Program.Label σ ρ (ClientChoice Op) Tid)}
    {c : Threads.Conf (Mem σ Tid) Tid (ClientPc Pc Op)} (h : C.program.Run s₀ tr c) :
    P.Run s₀ (C.outerTrace tr) (outerConf P c) :=
  (C.refines s₀).run h

end Client

end QubitLock
