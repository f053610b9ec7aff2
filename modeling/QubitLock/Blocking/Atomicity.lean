import QubitLock.Blocking.Calls
import QubitLock.Monitor.Conduct

set_option relaxedAutoImplicit false
set_option autoImplicit false

/-!
# Atomicity of the blocking operations

However the threads interleave, the protected value is the fold of the mutating closures in the
order in which they ran. A wait gives up the lock and takes it back any number of times, and still
runs its action at most once, in the critical section in which its predicate told it to stop
waiting.

Closures may panic and predicates may be impure here; an operation that panicked has not returned.

## Main definitions

* `Blocking.Call.update` — the closure of a call that updates the value.
* `Blocking.Call.Committed` — what a call that returned has committed.
* `Blocking.Decided` — a wait was told to stop waiting, and nothing was committed since.

## Main results

* `Blocking.operations_atomic` — atomicity in every run.
-/

namespace QubitLock.Blocking

variable {σ ρ : Type}

/-- The closure of a call that updates the value without waiting for a predicate. -/
def Call.update : Call σ ρ → Option (σ → σ × Option ρ)
  | .op (.withWrite f) | .op (.withWriteNotifyOne f) | .op (.withWriteNotifyAll f) |
    .guard (.derefMut f) => some f
  | _ => none

/-- What a call that returned `out` has committed: `ws` are the runs of mutating closures in it. An
update and a wait that returns the result of its action ran their closure exactly once, and
returned its result; every other call ran none. -/
def Call.Committed : Call σ ρ → Outcome ρ → List (Did σ ρ) → Prop
  | .op (.withWrite f), out, ws | .op (.withWriteNotifyOne f), out, ws |
    .op (.withWriteNotifyAll f), out, ws =>
    ∃ v r, out = .value r ∧ ws = [.wrote f v (some r)]
  | .op (.waitWhile w), out, ws => ∃ v r, out = .value r ∧ ws = [.wrote w.f v (some r)]
  | .op (.waitWhileFor _ w), out, ws | .op (.waitWhileWithDeadline _ w), out, ws |
    .op (.waitWhileWithTotalTimeout _ w), out, ws =>
    (∃ v r, out = .timed (.ok (.ready r)) ∧ ws = [.wrote w.f v (some r)]) ∨
      ((out = .timed (.ok .timedOut) ∨ ∃ e, out = .timed (.error e)) ∧ ws = [])
  | _, _, ws => ws = []

/-- What a call has committed so far, at each program counter. -/
def Commits (o : Call σ ρ) (ds : List (Did σ ρ)) : Pc σ ρ → Prop
  | .finish out | .done out | .notifyRelease _ out | .notify _ out | .signal _ _ out =>
    o.Committed out (writes ds)
  | .act w _ =>
    writes ds = [] ∧ ∃ n v ds', ds = .checked v (some false) :: ds' ∧ w.waiting n v = some false
  | .idle | .held | .heldUnwinding | .guardDone _ | .unwindGuard | .guardPanicked => True
  | _ => writes ds = []

/-- A timed wait that gives up or fails has committed nothing. -/
lemma committed_nothing {o : Call σ ρ} {w : Condition σ ρ} {ws : List (Did σ ρ)}
    {out : Outcome ρ} (hw : o.condition = some w) (ht : o.timed = true)
    (hout : out = .timed (.ok .timedOut) ∨ ∃ e, out = .timed (.error e)) (h : ws = []) :
    o.Committed out ws := by
  cases o with
  | op op => cases op <;> first | exact .inr ⟨hout, h⟩ | cases ht
  | guard => cases hw

/-- A wait that ran its action has committed it. -/
lemma committed_action {o : Call σ ρ} {w : Condition σ ρ} (hw : o.condition = some w) (v : σ)
    (r : ρ) :
    o.Committed (if o.timed then .timed (.ok (.ready r)) else .value r) [.wrote w.f v (some r)] := by
  cases o with
  | op op =>
    cases op <;> cases hw
    · exact ⟨v, r, rfl, rfl⟩
    all_goals exact .inl ⟨v, r, rfl, rfl⟩
  | guard => cases hw

/-- An update that ran its closure has committed it. -/
lemma committed_write {o : Call σ ρ} {f : σ → σ × Option ρ} {n : Option Notify}
    (h : o.Enters (.write f n)) (v : σ) (r : ρ) :
    o.Committed (.value r) [.wrote f v (some r)] := by
  rcases n with _ | _ | _ <;> obtain rfl : o = _ := h <;> exact ⟨v, r, rfl, rfl⟩

lemma commits_wakeAll {o : Call σ ρ} {ds : List (Did σ ρ)} {out : Outcome ρ}
    (h : o.Committed out (writes ds)) (as : List ℕ) : Commits o ds (wakeAll as out) := by
  cases as <;> exact h

lemma commits_resume {ds : List (Did σ ρ)} (o : Call σ ρ) (h : writes ds = []) (k : Caller σ ρ) :
    Commits o ds (resume k) := by
  cases k
  · exact h
  · trivial

lemma commits_resumeTimed {o : Call σ ρ} {ds : List (Did σ ρ)} {k : Caller σ ρ}
    (hk : o.Waits true k) (h : writes ds = []) (r : Except TimeError WaitTimeoutStatus) :
    Commits o ds (resumeTimed k r) := by
  cases k with
  | loop w n =>
    cases r with
    | error e => exact committed_nothing hk.1 hk.2 (.inr ⟨e, rfl⟩) h
    | ok status => exact h
  | guard => cases r <;> trivial

lemma commits_timerFailed {o : Call σ ρ} {ds : List (Did σ ρ)} {k : Caller σ ρ}
    (hk : o.Waits true k) (h : writes ds = []) (e : TimeError) :
    Commits o ds (timerFailed k e) := by
  cases k with
  | loop w n => exact committed_nothing hk.1 hk.2 (.inr ⟨e, rfl⟩) h
  | guard => trivial

lemma commits_panicked (o : Call σ ρ) (ds : List (Did σ ρ)) (k : Caller σ ρ) :
    Commits o ds (panicked k) := by
  cases k <;> trivial

lemma commits_entry (o : Call σ ρ) {ds : List (Did σ ρ)} (h : writes ds = []) (e : Entry σ ρ) :
    Commits o ds e.pc := by
  cases e <;> first | exact h | trivial

/-- **The primitives of a call keep the record of what it has committed.**

**Proof sketch.** One case for each program counter. A call has committed nothing before its own
closure, the closure of an update is committed by the one write of `write`, and a wait comes to its
action only from a check that answered `false`; that check is the latest report of the call. -/
lemma commits_reports {maxInstant : ℕ} {p p' : Pc σ ρ} {d : Did σ ρ} {o : Call σ ρ}
    {ds : List (Did σ ρ)} (h : (code maxInstant p).Reports d p') (hat : At o p)
    (hc : Commits o ds p) : Commits o (d :: ds) p' := by
  cases p with
  | idle | held | heldUnwinding | unwindRegistration => cases hat
  | acquire e =>
    cases h
    exact commits_entry o (by exact hc) e
  | deadlineAfter timeout w =>
    obtain rfl : o = _ := hat
    cases h with
    | now _ now =>
      dsimp only
      split
      · exact hc
      · exact committed_nothing (o := .op (.waitWhileWithTotalTimeout timeout w)) rfl rfl
          (.inr ⟨_, rfl⟩) hc
  | read f =>
    obtain rfl : o = _ := hat
    cases h with
    | read _ _ v => cases f v <;> first | exact hc | trivial
  | write f n =>
    have hw : writes ds = [] := hc
    cases h with
    | write _ _ v =>
      cases hr : (f v).2 with
      | none => trivial
      | some r =>
        have hcommit := committed_write hat v r
        cases n <;> simpa [Commits, Did.isWrite, hw] using hcommit
  | guardRead f =>
    cases h with
    | read _ _ v => cases f v <;> trivial
  | guardWrite f =>
    cases h with
    | write _ _ v => cases (f v).2 <;> trivial
  | isPoisoned | clearPoison =>
    obtain rfl : o = _ := hat
    cases h
    exact hc
  | notifyRelease n out =>
    cases h
    exact hc
  | notify n out => cases n <;> cases h <;> exact commits_wakeAll (by exact hc) _
  | signal a rest out =>
    cases h
    exact commits_wakeAll (by exact hc) rest
  | check w n =>
    cases h with
    | check _ _ v =>
      rcases hv : w.waiting n v with _ | _ | _
      · trivial
      · exact ⟨hc, n, v, ds, rfl, hv⟩
      · exact hc
  | sample timeout w =>
    cases h
    exact hc
  | checkFor timeout startedAt w =>
    obtain rfl : o = _ := hat
    cases h with
    | check _ _ v =>
      rcases hv : w.waiting 0 v with _ | _ | _
      · trivial
      · exact ⟨hc, 0, v, ds, rfl, hv⟩
      · dsimp only
        split
        · exact committed_nothing (o := .op (.waitWhileFor timeout w)) rfl rfl (.inl rfl) hc
        · split
          · exact hc
          · exact committed_nothing (o := .op (.waitWhileFor timeout w)) rfl rfl (.inr ⟨_, rfl⟩) hc
  | checkDeadline deadline w =>
    cases h with
    | check _ _ v =>
      rcases hv : w.waiting 0 v with _ | _ | _
      · trivial
      · exact ⟨hc, 0, v, ds, rfl, hv⟩
      · exact hc
  | timerAt deadline k early =>
    cases h with
    | timerAt _ _ r =>
      cases r with
      | error e => exact commits_timerFailed (waits_of_timerAt hat) (by exact hc) e
      | ok _ => cases k <;> cases early <;> exact hc
  | timerAfter timeout =>
    cases h with
    | now _ now =>
      dsimp only
      split
      · exact hc
      · trivial
  | earlyPoll w =>
    obtain ⟨deadline, henter⟩ := hat
    obtain ⟨hcond, htimed⟩ := condition_of_enters henter
    cases h with
    | pollTimer _ _ r =>
      rcases r with _ | e | _
      · exact hc
      · exact committed_nothing hcond htimed (.inr ⟨e, rfl⟩) hc
      · exact committed_nothing hcond htimed (.inl rfl) hc
  | recheck w n status =>
    cases h with
    | check _ _ v =>
      rcases hv : w.waiting n v with _ | _ | _
      · trivial
      · exact ⟨hc, n, v, ds, rfl, hv⟩
      · cases status
        · exact hc
        · exact committed_nothing hat.1 hat.2 (.inl rfl) hc
  | act w timed =>
    obtain ⟨hcond, rfl⟩ := hat
    cases h with
    | write _ _ v =>
      cases hr : (w.f v).2 with
      | none => trivial
      | some r => simpa [Commits, Did.isWrite, hc.1] using committed_action hcond v r
  | pollNoWaiter k =>
    cases h with
    | pollTimer _ _ r =>
      cases r with
      | pending => exact hc
      | ready r => exact commits_resumeTimed hat (by exact hc) _
  | register timed k =>
    cases h with
    | register _ g =>
      cases g with
      | none => exact commits_panicked o _ k
      | some g => cases timed <;> exact hc
  | pollRegistered k g =>
    cases h with
    | pollTimer _ _ r => cases r <;> exact hc
  | dropEarly k g r =>
    cases h
    exact commits_resumeTimed hat (by exact hc) _
  | release | park =>
    cases h
    exact hc
  | dropRegistration timed k g =>
    cases h
    cases timed <;> exact hc
  | reacquire k =>
    cases h
    exact commits_resume o (by exact hc) k
  | reacquireTimed k a =>
    cases h
    exact hc
  | finalPoll k a =>
    cases h with
    | pollTimer _ _ r => cases r <;> exact commits_resumeTimed hat (by exact hc) _
  | finish | done | guardDone | unwindGuard | guardPanicked =>
    cases h
    trivial

variable {Tid : Type} [DecidableEq Tid] {s₀ : Setup σ}
  {tr : List (Program.Label σ ρ (Choice σ ρ) Tid)} {c : Threads.Conf (Mem σ Tid) Tid (Pc σ ρ)}

/-- Every call has the record of what it has committed. -/
lemma commits_of_run (maxInstant : ℕ) (h : (program maxInstant).Run s₀ tr c) (t : Tid) :
    User (c.pc t) ∨ ∃ o, lastCall Choice.called tr t = some o ∧ At o (c.pc t) ∧
      Commits o (since Choice.called tr t) (c.pc t) := by
  refine (calls maxInstant).conduct (typed maxInstant Tid) (V := Commits) ?_ ?_ commits_reports h t
  · intro p x p' o hj hx
    cases p <;> cases x <;> cases hj <;> cases hx
    · rename_i op
      cases op <;> rfl
    · rename_i op
      cases op <;> rfl
  · intro p x p' o ds hj hx hat hc
    cases p <;> cases x <;> cases hj <;> cases hx <;> cases hat

/-- The predicate of a wait of thread `t` has answered `false` on `v`, and after this check nobody
has committed anything and `t` has done nothing. -/
def Decided (past : List (Program.Label σ ρ (Choice σ ρ) Tid)) (t : Tid) (w : Condition σ ρ)
    (v : σ) : Prop :=
  ∃ n later earlier, w.waiting n v = some false ∧
    past = later ++ .did t (.checked v (some false)) :: earlier ∧ commits later = [] ∧
    ∀ d, .did t d ∉ later

/-- A commit belongs to a call: it is its update, or the action of a wait that was told to stop
waiting.

**Proof sketch.** A mutating closure runs at the write of an update or at the action of a wait. The
action follows a check of the same call, and while the thread has held the lock since then nobody has
committed (`undisturbed`), so the check answered on the very value that the action gets. -/
lemma commit_of_run (maxInstant : ℕ) (h : (program maxInstant).Run s₀ tr c) {t : Tid}
    {f : σ → σ × Option ρ} {v : σ} {r : Option ρ} {p : Pc σ ρ}
    (hf : (typed maxInstant Tid).Fires c.mem c.pc t (.wrote f v r) p) :
    ∃ o, lastCall Choice.called tr t = some o ∧
      (o.update = some f ∨ ∃ w, o.condition = some w ∧ f = w.f ∧ Decided tr t w v) := by
  have hreports : (code maxInstant (c.pc t)).Reports (.wrote f v r) p := hf.reports
  rcases commits_of_run maxInstant h t with hu | ⟨o, ho, hat, hc⟩
  · cases hp : c.pc t <;> rw [hp] at hu hreports <;> cases hu <;> cases hreports
  · refine ⟨o, ho, ?_⟩
    cases hp : c.pc t with
    | write f' n =>
      rw [hp] at hat hreports
      cases hreports
      refine .inl ?_
      rcases n with _ | _ | _ <;> obtain rfl : o = _ := hat <;> rfl
    | guardWrite f' =>
      rw [hp] at hat hreports
      cases hreports
      obtain rfl : o = _ := hat
      exact .inl rfl
    | act w timed =>
      rw [hp] at hat hc hreports
      cases hreports
      obtain ⟨-, n, v', ds', hds, hv'⟩ := hc
      have hheld : (typ (c.pc t)).holds = true := by rw [hp]; rfl
      -- the value has not changed since the check
      have hvalue : c.mem.value = v' :=
        (typed maxInstant Tid).value_eq_seen h hheld (by rw [hds]; rfl)
      obtain rfl : v = v' := hf.allows.2.1.trans hvalue
      obtain ⟨later, earlier, htr, hcommits, hown, -⟩ :=
        (typed maxInstant Tid).undisturbed h hheld hds
      exact .inr ⟨w, hat.1, rfl, n, later, earlier, hv', htr, hcommits, hown⟩
    | notify n out =>
      rw [hp] at hreports
      cases n <;> cases hreports
    | _ =>
      rw [hp] at hreports
      cases hreports

/-- A call that returns has committed what it should. -/
lemma committed_of_returned (maxInstant : ℕ) (h : (program maxInstant).Run s₀ tr c) {t : Tid}
    {out : Outcome ρ} {v : σ} {now : ℕ} {p : Pc σ ρ}
    (hf : (typed maxInstant Tid).Fires c.mem c.pc t (.returned out v now) p) :
    ∃ o, lastCall Choice.called tr t = some o ∧
      o.Committed out (writes (since Choice.called tr t)) := by
  have hreports : (code maxInstant (c.pc t)).Reports (.returned out v now) p := hf.reports
  rcases commits_of_run maxInstant h t with hu | ⟨o, ho, -, hc⟩
  · cases hp : c.pc t <;> rw [hp] at hu hreports <;> cases hu <;> cases hreports
  · refine ⟨o, ho, ?_⟩
    cases hp : c.pc t with
    | finish out' | done out' =>
      rw [hp] at hc hreports
      cases hreports
      exact hc
    | notify n out' =>
      rw [hp] at hreports
      cases n <;> cases hreports
    | _ =>
      rw [hp] at hreports
      cases hreports

/-- **The operations of a blocking monitor are atomic.** In every state of every run the protected
value is the initial value folded through the closures committed so far, in commit order; so every
closure runs on the fold of the closures before it. A commit is the run of the closure of an update,
or of the action of a wait whose predicate had answered `false` on the same value with no other
commit in between. Every operation that returned has committed what it should: an update and a wait
that returned the result of its action exactly this one closure, a wait that timed out or failed
nothing.

**Proof sketch.** The value is the fold in every run (`value_eq_replay`), hence also in the shorter run
before a commit, and a closure runs on the value of that moment. Which closure a call commits, and how
often, is read off the record of the call (`commits_reports`) at the commit and at its return. -/
theorem operations_atomic (maxInstant : ℕ) (s₀ : Setup σ)
    {tr : List (Program.Label σ ρ (Choice σ ρ) Tid)} {c : Threads.Conf (Mem σ Tid) Tid (Pc σ ρ)}
    (h : (program maxInstant).Run s₀ tr c) :
    c.mem.value = replay s₀.value tr ∧
    (∀ t f v r past, .did t (.wrote f v r) :: past <:+ tr →
      v = replay s₀.value past ∧ ∃ o, lastCall Choice.called past t = some o ∧
        (o.update = some f ∨ ∃ w, o.condition = some w ∧ f = w.f ∧ Decided past t w v)) ∧
    ∀ t out v now past, .did t (.returned out v now) :: past <:+ tr →
      ∃ o, lastCall Choice.called past t = some o ∧
        o.Committed out (writes (since Choice.called past t)) := by
  refine ⟨(typed maxInstant Tid).value_eq_replay h, ?_, ?_⟩
  · intro t f v r past hs
    obtain ⟨m, pc, p, hr, hf⟩ := (typed maxInstant Tid).fires_of_suffix h hs
    refine ⟨?_, commit_of_run maxInstant hr hf⟩
    rw [hf.allows.2.1]
    exact (typed maxInstant Tid).value_eq_replay hr
  · intro t out v now past hs
    obtain ⟨m, pc, p, hr, hf⟩ := (typed maxInstant Tid).fires_of_suffix h hs
    exact committed_of_returned maxInstant hr hf

/-- A timed wait is suspended, an update increments the value and selects it, and the wait runs its
action and returns. -/
def updatedThenActed : List (Threads.Event Bool (Option TimeError) (Choice ℕ Unit)
    (TimerEvent Bool)) :=
  [.choose false (.call (.waitWhileFor 5 ⟨fun _ v => some (v == 0), fun v => (v + 10, some ())⟩)),
    .run false none, .run false none, .run false none, .run false none, .run false none,
    .run false none, .run false none, .run false none,
    .choose true (.call (.withWriteNotifyOne fun v => (v + 1, some ()))),
    .run true none, .run true none, .run true none, .run true none, .run true none, .run true none,
    .run false none, .run false none, .run false none, .run false none, .run false none,
    .run false none, .run false none]

/-- In the run of `updatedThenActed` the lock is free, two closures were committed, and the value is
their fold. -/
theorem operations_atomic_updated :
    ∃ tr, ∃ c : Threads.Conf (Mem ℕ Bool) Bool (Pc ℕ Unit),
      (program 100).Run ⟨0, 0, true⟩ tr c ∧ c.mem.owner = none ∧ (commits tr).length = 2 ∧
      c.mem.value = 11 ∧ c.mem.value = replay 0 tr ∧
      ∀ t out v now past, .did t (.returned out v now) :: past <:+ tr →
        ∃ o, lastCall Choice.called past t = some o ∧
          o.Committed out (writes (since Choice.called past t)) := by
  obtain ⟨tr, c, hr, hp, -⟩ := (program 100).threads.exists_run_of_play
    ((program 100).start ⟨0, 0, true⟩) updatedThenActed
    (p := fun s => s.1.mem.owner = none ∧ (commits s.2).length = 2 ∧ s.1.mem.value = 11)
    (by decide)
  simp only [decide_eq_true_eq] at hp
  obtain ⟨hfree, hcommits, hvalue⟩ := hp
  obtain ⟨hreplay, -, hreturned⟩ := operations_atomic 100 _ hr
  exact ⟨tr, c, hr, hfree, hcommits, hvalue, hreplay, hreturned⟩

end QubitLock.Blocking
