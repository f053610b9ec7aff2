import Mathlib.Data.List.Infix

set_option relaxedAutoImplicit false
set_option autoImplicit false

/-!
# Runs of a labelled stepper and their traces

A system is given by a partial step function `step : S → E → Option (S × L)`: in state `s` the
event `e` is either impossible or leads to a new state and reports a label. A *run* collects the
labels of its steps, newest first, so that a function of the past of a run is a structural
recursion over the trace.

## Main definitions

* `Lts.Run` — the states reachable from `init`, each with the trace that leads to it.
* `Lts.Always` — every label of a trace stands in a given relation to the trace before it.
* `Lts.play` — runs a list of events, for closed examples.

## Main results

* `Lts.Run.invariant`, `Lts.Run.invariant_since` — the invariant rules, for a run and for the part of a
  run since a label.
* `Lts.Run.exists_step` — every label of a trace was reported by a step of the run.
* `Lts.Run.play` — a successful script extends a run.
-/

namespace Lts

variable {S E L : Type*}

/-- The runs of `step` from `init`: `Run step init tr s` says that `s` is reached by steps that
report the labels `tr`, newest label first. -/
inductive Run (step : S → E → Option (S × L)) (init : S) : List L → S → Prop
  | nil : Run step init [] init
  | cons {tr : List L} {s s' : S} {l : L} (e : E) :
      Run step init tr s → step s e = some (s', l) → Run step init (l :: tr) s'

/-- Every label of the trace stands in relation `Q` to the part of the trace before it. -/
def Always (Q : L → List L → Prop) : List L → Prop
  | [] => True
  | l :: tr => Q l tr ∧ Always Q tr

instance decidableAlways (Q : L → List L → Prop) [∀ l tr, Decidable (Q l tr)] :
    ∀ tr, Decidable (Always Q tr)
  | [] => .isTrue trivial
  | l :: tr =>
    match (inferInstance : Decidable (Q l tr)), decidableAlways Q tr with
    | .isTrue h, .isTrue h' => .isTrue ⟨h, h'⟩
    | .isFalse h, _ => .isFalse fun hh => h hh.1
    | _, .isFalse h' => .isFalse fun hh => h' hh.2

/-- A property of all labels holds of each label together with its past. -/
lemma Always.of_suffix {Q : L → List L → Prop} {tr tr' : List L} {l : L} (h : Always Q tr)
    (hs : l :: tr' <:+ tr) : Q l tr' := by
  induction tr with
  | nil => simp at hs
  | cons l₀ tr ih =>
    rcases List.suffix_cons_iff.mp hs with he | hs
    · obtain ⟨rfl, rfl⟩ := List.cons.inj he
      exact h.1
    · exact ih h.2 hs

variable {step : S → E → Option (S × L)} {init : S}

/-- **The invariant rule**: a relation between trace and state that holds at the start and is
kept by every step from a reachable state holds in every run. -/
theorem Run.invariant {I : List L → S → Prop} (h₀ : I [] init)
    (hstep : ∀ {tr s e s' l}, Run step init tr s → I tr s → step s e = some (s', l) →
      I (l :: tr) s')
    {tr : List L} {s : S} (h : Run step init tr s) : I tr s := by
  induction h with
  | nil => exact h₀
  | cons e hr he ih => exact hstep hr ih he

/-- **The rule for what happened since a label**: a relation between the labels reported since and
the state that the step with the label establishes, and that every later step keeps. -/
theorem Run.invariant_since {I : List L → S → Prop} {l : L} {later past : List L} {s : S}
    (hbase : ∀ {s}, Run step init (l :: past) s → I [] s)
    (hstep : ∀ {later s e s' l'}, Run step init (later ++ l :: past) s → I later s →
      step s e = some (s', l') → I (l' :: later) s')
    (h : Run step init (later ++ l :: past) s) : I later s := by
  induction later generalizing s with
  | nil => exact hbase h
  | cons l' later ih =>
    cases h with
    | cons e hr hs => exact hstep hr (ih hr) hs

/-- Every label of a trace was reported by a step of the run, taken from a state that the older
part of the trace leads to. -/
theorem Run.exists_step {tr tr' : List L} {s : S} {l : L} (h : Run step init tr s)
    (hs : l :: tr' <:+ tr) :
    ∃ s₀ e s₁, Run step init tr' s₀ ∧ step s₀ e = some (s₁, l) := by
  induction h with
  | nil => simp at hs
  | cons e hr he ih =>
    rcases List.suffix_cons_iff.mp hs with heq | hs
    · obtain ⟨rfl, rfl⟩ := List.cons.inj heq
      exact ⟨_, e, _, hr, he⟩
    · exact ih hs

/-- Runs the events of a script, collecting the labels. -/
def play (step : S → E → Option (S × L)) : S × List L → List E → Option (S × List L)
  | c, [] => some c
  | c, e :: es =>
    match step c.1 e with
    | none => none
    | some (s', l) => play step (s', l :: c.2) es

/-- A script that can be played extends a run. -/
lemma Run.play {c c' : S × List L} {es : List E} (h : Run step init c.2 c.1)
    (hp : Lts.play step c es = some c') : Run step init c'.2 c'.1 := by
  induction es generalizing c with
  | nil =>
    obtain rfl : c = c' := by simpa [Lts.play] using hp
    exact h
  | cons e es ih =>
    simp only [Lts.play] at hp
    split at hp
    · simp at hp
    · rename_i s' l he
      exact ih (c := (s', l :: c.2)) (.cons e h he) hp

end Lts
