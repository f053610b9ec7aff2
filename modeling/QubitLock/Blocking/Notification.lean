import Mathlib.Data.List.Perm.Subperm
import QubitLock.Blocking.Calls
import QubitLock.Blocking.Suspension
import QubitLock.Monitor.Conduct

set_option relaxedAutoImplicit false
set_option autoImplicit false

/-!
# Notifications of the blocking monitors

A notification of a blocking monitor takes waiters under the registry lock and signals them
afterwards, outside of every lock. Its signals may arrive late, when the waiter has already timed
out and its thread waits again; every suspension has a waiter object of its own, so a late signal
finds a latch that nobody waits for any more.

## Main definitions

* `Blocking.selections` — the kinds of the selections among the reports of a call.
* `Blocking.Selects` — what a call has selected so far, at each program counter.
* `Blocking.untimedWakes` — the waiter objects of the untimed suspensions that ended.
* `Blocking.DeliveredOnce` — what notifications select, signal and wake.

## Main results

* `Blocking.selects_of_run` — a notifying call makes one selection, of its own kind.
* `Blocking.notifications_delivered_once` — `DeliveredOnce` holds in every run.
-/

namespace QubitLock.Blocking

variable {σ ρ Tid : Type}

/-! ## The selections of a call -/

/-- The kind of the notification that a report selects waiters for. -/
def selection : Did σ ρ → Option Notify
  | .tookOne _ => some .one
  | .tookAll _ => some .all
  | _ => none

/-- The kinds of the selections among the reports of a call, newest first. -/
def selections (ds : List (Did σ ρ)) : List Notify :=
  ds.filterMap selection

/-- The first selection of a call. -/
lemma selections_cons {d : Did σ ρ} {n : Notify} {ds : List (Did σ ρ)} (hd : selection d = some n)
    (h : selections ds = []) : selections (d :: ds) = [n] := by
  rw [selections, List.filterMap_cons_some hd]
  exact congrArg (n :: ·) h

/-- What a call has selected so far, at each program counter: nothing before the selection, and
afterwards one selection of its own kind if it notifies. -/
def Selects (o : Call σ ρ) (ds : List (Did σ ρ)) : Pc σ ρ → Prop
  | .finish _ | .done _ | .signal _ _ _ => selections ds = o.notifies.toList
  | .idle | .held | .heldUnwinding | .unwindGuard => True
  | _ => selections ds = []

/-- A wait notifies nobody. -/
lemma notifies_of_condition {o : Call σ ρ} {w : Condition σ ρ} (h : o.condition = some w) :
    o.notifies = none := by
  cases o with
  | op op => cases op <;> first | rfl | cases h
  | guard => cases h

lemma notifies_of_timed {o : Call σ ρ} (h : o.timed = true) : o.notifies = none := by
  cases o with
  | op op => cases op <;> first | rfl | cases h
  | guard op => cases op <;> first | rfl | cases h

/-- A call that notifies nobody and has selected nobody has selected what it should. -/
lemma selections_of_none {o : Call σ ρ} {ds : List (Did σ ρ)} (ho : o.notifies = none)
    (h : selections ds = []) : selections ds = o.notifies.toList := by
  rw [ho, h]
  rfl

lemma selects_wakeAll {o : Call σ ρ} {ds : List (Did σ ρ)} (h : selections ds = o.notifies.toList)
    (as : List ℕ) (out : Outcome ρ) : Selects o ds (wakeAll as out) := by
  cases as <;> exact h

lemma selects_entry (o : Call σ ρ) {ds : List (Did σ ρ)} (h : selections ds = []) (e : Entry σ ρ) :
    Selects o ds e.pc := by
  cases e <;> first | exact h | trivial

lemma selects_resume (o : Call σ ρ) {ds : List (Did σ ρ)} (h : selections ds = [])
    (k : Caller σ ρ) : Selects o ds (resume k) := by
  cases k <;> exact h

lemma selects_resumeTimed {o : Call σ ρ} {ds : List (Did σ ρ)} {k : Caller σ ρ}
    (hk : o.Waits true k) (h : selections ds = []) (r : Except TimeError WaitTimeoutStatus) :
    Selects o ds (resumeTimed k r) := by
  cases k with
  | loop w n =>
    cases r with
    | error e => exact selections_of_none (notifies_of_timed hk.2) h
    | ok status => exact h
  | guard => cases r <;> exact h

lemma selects_timerFailed {o : Call σ ρ} {ds : List (Did σ ρ)} {k : Caller σ ρ}
    (hk : o.Waits true k) (h : selections ds = []) (e : TimeError) :
    Selects o ds (timerFailed k e) := by
  cases k with
  | loop w n => exact selections_of_none (notifies_of_timed hk.2) h
  | guard => exact h

lemma selects_panicked (o : Call σ ρ) {ds : List (Did σ ρ)} (h : selections ds = [])
    (k : Caller σ ρ) : Selects o ds (panicked k) := by
  cases k with
  | loop => trivial
  | guard => exact h

/-- **The primitives of a call keep the record of what it has selected.**

**Proof sketch.** One case for each program counter. The record of a call changes only at `notify`, to
one selection of the kind that the call sends; a program counter that ends a call without passing
there belongs to a call that notifies nobody. -/
lemma selects_reports {maxInstant : ℕ} {p p' : Pc σ ρ} {d : Did σ ρ} {o : Call σ ρ}
    {ds : List (Did σ ρ)} (h : (code maxInstant p).Reports d p') (hat : At o p)
    (hc : Selects o ds p) : Selects o (d :: ds) p' := by
  cases p with
  | idle | held | heldUnwinding | unwindRegistration => cases hat
  | acquire e =>
    cases h
    exact selects_entry o (by exact hc) e
  | deadlineAfter timeout w =>
    obtain rfl : o = _ := hat
    cases h with
    | now _ now =>
      dsimp only
      split <;> exact hc
  | read f =>
    obtain rfl : o = _ := hat
    cases h with
    | read _ _ v => cases f v <;> first | exact hc | trivial
  | write f n =>
    cases h with
    | write _ _ v =>
      cases (f v).2 with
      | none => trivial
      | some r =>
        cases n with
        | none =>
          obtain rfl : o = _ := hat
          exact hc
        | some n => exact hc
  | guardRead f =>
    cases h with
    | read _ _ v => cases f v <;> first | exact hc | trivial
  | guardWrite f =>
    cases h with
    | write _ _ v => cases (f v).2 <;> first | exact hc | trivial
  | isPoisoned | clearPoison =>
    obtain rfl : o = _ := hat
    cases h
    exact hc
  | notifyRelease n out =>
    cases h
    exact hc
  | notify n out =>
    have hd : selection d = some n := by cases n <;> cases h <;> rfl
    have hselected : selections (d :: ds) = o.notifies.toList := by
      rw [selections_cons hd hc, show o.notifies = some n from hat]
      rfl
    cases n <;> cases h <;> exact selects_wakeAll hselected _ _
  | signal a rest out =>
    cases h
    exact selects_wakeAll (by exact hc) rest out
  | check w n =>
    cases h with
    | check _ _ v =>
      rcases w.waiting n v with _ | _ | _
      · trivial
      all_goals exact hc
  | sample timeout w =>
    cases h
    exact hc
  | checkFor timeout startedAt w =>
    obtain rfl : o = _ := hat
    cases h with
    | check _ _ v =>
      rcases w.waiting 0 v with _ | _ | _
      · trivial
      · exact hc
      · dsimp only
        split
        · exact hc
        · split <;> exact hc
  | checkDeadline deadline w =>
    cases h with
    | check _ _ v =>
      rcases w.waiting 0 v with _ | _ | _
      · trivial
      all_goals exact hc
  | timerAt deadline k early =>
    cases h with
    | timerAt _ _ r =>
      cases r with
      | error e => exact selects_timerFailed (waits_of_timerAt hat) (by exact hc) e
      | ok _ => cases k <;> cases early <;> exact hc
  | timerAfter timeout =>
    cases h with
    | now _ now =>
      dsimp only
      split <;> exact hc
  | earlyPoll w =>
    obtain ⟨deadline, henter⟩ := hat
    have hno := notifies_of_timed (condition_of_enters henter).2
    cases h with
    | pollTimer _ _ r =>
      rcases r with _ | _ | _
      · exact hc
      all_goals exact selections_of_none hno (by exact hc)
  | recheck w n status =>
    cases h with
    | check _ _ v =>
      rcases w.waiting n v with _ | _ | _
      · trivial
      · exact hc
      · cases status
        · exact hc
        · exact selections_of_none (notifies_of_condition hat.1) (by exact hc)
  | act w timed =>
    cases h with
    | write _ _ v =>
      cases (w.f v).2 with
      | none => trivial
      | some r => exact selections_of_none (notifies_of_condition hat.1) (by exact hc)
  | pollNoWaiter k =>
    cases h with
    | pollTimer _ _ r =>
      cases r with
      | pending => exact hc
      | ready r => exact selects_resumeTimed hat (by exact hc) _
  | register timed k =>
    cases h with
    | register _ g =>
      cases g with
      | none => exact selects_panicked o (by exact hc) k
      | some g => cases timed <;> exact hc
  | pollRegistered k g =>
    cases h with
    | pollTimer _ _ r => cases r <;> exact hc
  | dropEarly k g r =>
    cases h
    exact selects_resumeTimed hat (by exact hc) _
  | release | park =>
    cases h
    exact hc
  | dropRegistration timed k g =>
    cases h
    cases timed <;> exact hc
  | reacquire k =>
    cases h
    exact selects_resume o (by exact hc) k
  | reacquireTimed k a =>
    cases h
    exact hc
  | finalPoll k a =>
    cases h with
    | pollTimer _ _ r => cases r <;> exact selects_resumeTimed hat (by exact hc) _
  | finish | done | guardDone | unwindGuard | guardPanicked =>
    cases h
    trivial

section Selections

variable [DecidableEq Tid] {maxInstant : ℕ} {s₀ : Setup σ}
  {tr : List (Program.Label σ ρ (Choice σ ρ) Tid)} {c : Threads.Conf (Mem σ Tid) Tid (Pc σ ρ)}

/-- **Every call has the record of what it has selected.** -/
lemma selects_of_run (h : (program maxInstant).Run s₀ tr c) (t : Tid) :
    User (c.pc t) ∨ ∃ o, lastCall Choice.called tr t = some o ∧ At o (c.pc t) ∧
      Selects o (since Choice.called tr t) (c.pc t) := by
  refine (calls maxInstant).conduct (typed maxInstant Tid) (V := Selects) ?_ ?_ selects_reports h t
  · intro p x p' o hj hx
    cases p <;> cases x <;> cases hj <;> cases hx
    · rename_i op
      cases op <;> rfl
    · rename_i op
      cases op <;> rfl
  · intro p x p' o ds hj hx hat hc
    cases p <;> cases x <;> cases hj <;> cases hx <;> cases hat

/-- A call that returns has made the selection of its kind, if it notifies, and no other one. -/
lemma selections_of_returned (h : (program maxInstant).Run s₀ tr c) {t : Tid} {out : Outcome ρ}
    {v : σ} {now : ℕ} {p : Pc σ ρ}
    (hf : (typed maxInstant Tid).Fires c.mem c.pc t (.returned out v now) p) :
    ∃ o, lastCall Choice.called tr t = some o ∧
      selections (since Choice.called tr t) = o.notifies.toList := by
  have hreports : (code maxInstant (c.pc t)).Reports (.returned out v now) p := hf.reports
  rcases selects_of_run h t with hu | ⟨o, ho, -, hc⟩
  · cases eq_unwound_of_user hreports hu
  · refine ⟨o, ho, ?_⟩
    cases hp : c.pc t with
    | finish out' | done out' =>
      rw [hp] at hc
      exact hc
    | notify n out' =>
      rw [hp] at hreports
      cases n <;> cases hreports
    | _ =>
      rw [hp] at hreports
      cases hreports

/-- A selection is the first one of its call, which sends a notification of its kind. -/
lemma notifies_of_selection (h : (program maxInstant).Run s₀ tr c) {t : Tid} {d : Did σ ρ}
    {n : Notify} {p : Pc σ ρ} (hf : (typed maxInstant Tid).Fires c.mem c.pc t d p)
    (hd : selection d = some n) :
    ∃ o, lastCall Choice.called tr t = some o ∧ o.notifies = some n ∧
      selections (since Choice.called tr t) = [] := by
  have hreports : (code maxInstant (c.pc t)).Reports d p := hf.reports
  rcases selects_of_run h t with hu | ⟨o, ho, hat, hc⟩
  · obtain rfl := eq_unwound_of_user hreports hu
    cases hd
  · refine ⟨o, ho, ?_⟩
    cases hp : c.pc t with
    | notify n' out =>
      rw [hp] at hat hc hreports
      have hn : n' = n := by cases n' <;> cases hreports <;> cases hd <;> rfl
      exact ⟨hn ▸ hat, hc⟩
    | _ =>
      rw [hp] at hreports
      cases hreports <;> cases hd

end Selections

/-! ## Untimed suspensions -/

/-- The waiter objects of the suspensions that ended and whose waker no Timer was given: the
suspensions of `wait_for_notification`. -/
def untimedWakes : List (Program.Label σ ρ (Choice σ ρ) Tid) → List ℕ
  | [] => []
  | .did _ d :: tr => (woken d).filter (· ∉ handedOver tr) ++ untimedWakes tr
  | .chose _ _ :: tr => untimedWakes tr
  | .ambient _ :: tr => untimedWakes tr

/-- Untimed suspensions are suspensions. -/
lemma untimedWakes_sublist (tr : List (Program.Label σ ρ (Choice σ ρ) Tid)) :
    (untimedWakes tr).Sublist (wakes tr) := by
  induction tr with
  | nil => exact List.Sublist.refl _
  | cons l tr ih =>
    cases l with
    | did t d => exact List.filter_sublist.append ih
    | chose | ambient => exact ih

/-- The end of an untimed suspension was reported. -/
lemma woke_of_mem_untimedWakes {tr : List (Program.Label σ ρ (Choice σ ρ) Tid)} {a : ℕ}
    (h : a ∈ untimedWakes tr) :
    ∃ t past, .did t (.woke a) :: past <:+ tr ∧ a ∉ handedOver past := by
  induction tr with
  | nil => cases h
  | cons l tr ih =>
    cases l with
    | did t d =>
      rcases List.mem_append.mp h with h | h
      · obtain ⟨hmem, hnot⟩ := List.mem_filter.mp h
        cases d with
        | woke b =>
          obtain rfl : a = b := by simpa [woken] using hmem
          exact ⟨t, tr, List.suffix_refl _, by simpa using hnot⟩
        | _ => simp [woken] at hmem
      · obtain ⟨t, past, hs, hnot⟩ := ih h
        exact ⟨t, past, hs.trans (List.suffix_cons _ _), hnot⟩
    | chose | ambient =>
      obtain ⟨t, past, hs, hnot⟩ := ih h
      exact ⟨t, past, hs.trans (List.suffix_cons _ _), hnot⟩

variable [DecidableEq Tid]

/-- What the notifications of a run select, signal and wake. -/
structure DeliveredOnce (tr : List (Program.Label σ ρ (Choice σ ρ) Tid)) (m : Mem σ Tid)
    (pc : Tid → Pc σ ρ) : Prop where
  /-- The registry is a queue in the order of registration. -/
  registry : m.registrations = queue tr ∧ (queue tr).Sublist (made tr).reverse
  /-- `notify_one` selects the wait that was registered earliest, if there is one. -/
  notify_one : ∀ t r past, .did t (.tookOne r) :: past <:+ tr → r = (queue past).head?
  /-- `notify_all` selects the registered waits. -/
  notify_all : ∀ t rs past, .did t (.tookAll rs) :: past <:+ tr → rs = queue past
  /-- A call that returned has made exactly one selection of its own kind if it notifies, and none
  otherwise. -/
  selects : ∀ t out v now past, .did t (.returned out v now) :: past <:+ tr →
    ∃ o, lastCall Choice.called past t = some o ∧
      selections (since Choice.called past t) = o.notifies.toList
  /-- A selection is made for the notification that its call sends, and is the first one there. -/
  selected : ∀ t d n past, .did t d :: past <:+ tr → selection d = some n →
    ∃ o, lastCall Choice.called past t = some o ∧ o.notifies = some n ∧
      selections (since Choice.called past t) = []
  /-- No registration is selected twice. -/
  once : (taken tr).Nodup
  /-- A notification signals waiters that it took, and none that was registered after that. -/
  signals : ∀ t a past, .did t (.signalled a) :: past <:+ tr →
    (∃ g ∈ lastTake past t, g.waiter = a) ∧ ∀ g ∈ madeSinceTake past t, g.waiter ≠ a
  /-- A suspension ends because its own latch was set after its own registration, and the waiter
  object belongs to no other suspension. -/
  wakes : ∀ t a past, .did t (.woke a) :: past <:+ tr → ∃ g, liveReg past t = some g ∧
    g.waiter = a ∧ a ∈ setSinceRegistration past t ∧
    ∀ u g', .did u (.registered (some g')) ∈ past → g'.waiter = a → u = t ∧ g' = g
  /-- The waker of a parked thread was given to a Timer exactly if the suspension is timed. -/
  timed : ∀ t timed caller g, pc t = .park timed caller g →
    (g.waiter ∈ handedOver tr ↔ timed = true)
  /-- An untimed suspension ends only after its registration was selected. -/
  untimed : ∀ t a past, .did t (.woke a) :: past <:+ tr → a ∉ handedOver past →
    ∃ g ∈ taken past, liveReg past t = some g ∧ g.waiter = a
  /-- There are at most as many ends of untimed suspensions as selections. -/
  counted : (untimedWakes tr).length ≤ (taken tr).length

section Run

variable {maxInstant : ℕ} {s₀ : Setup σ} {tr past : List (Program.Label σ ρ (Choice σ ρ) Tid)}
  {c : Threads.Conf (Mem σ Tid) Tid (Pc σ ρ)}

/-- The end of a suspension: the thread was parked, its latch was set, and the trace so far and the
memory agree. -/
lemma woke_of_suffix (h : (program maxInstant).Run s₀ tr c) {t : Tid} {a : ℕ}
    (hs : .did t (.woke a) :: past <:+ tr) :
    ∃ (m : Mem σ Tid) (R : Tid → Res) (g : Registration), History past m R ∧
      liveReg past t = some g ∧ g.waiter = a ∧ (R t).reg = some g ∧ m.signalled a = true := by
  obtain ⟨m, pc, p, hr, hf⟩ := (typed maxInstant Tid).fires_of_suffix h hs
  have hh := (typed maxInstant Tid).history hr
  obtain ⟨-, g, hg, rfl⟩ := hf.step.1
  exact ⟨m, _, g, hh, (hh.live t).trans hg, rfl, hg, hf.allows⟩

/-- The latch of an untimed suspension is set only by a notification that selected it. -/
lemma selected_of_woke (h : (program maxInstant).Run s₀ tr c) {t : Tid} {a : ℕ}
    (hs : .did t (.woke a) :: past <:+ tr) (hnot : a ∉ handedOver past) :
    ∃ g ∈ taken past, liveReg past t = some g ∧ g.waiter = a := by
  obtain ⟨m, R, g, hh, hlive, rfl, -, hset⟩ := woke_of_suffix h hs
  obtain ⟨g', hg', heq⟩ := (hh.latch _ hset).resolve_right hnot
  obtain rfl := hh.eq_of_waiter_eq (hh.made_of_taken hg') (hh.made_of_live hlive) heq
  exact ⟨g', hg', hlive, rfl⟩

/-- **Notifications are memoryless and delivered at most once.**

**Proof sketch.** The registry is the queue of the registrations that were made and neither taken nor
dropped (`History.queue`), so a selection takes its head or all of it, and the ids of registrations
are never used twice. A call makes its selection at one place of its code (`selects_of_run`). A
suspension ends on the latch of its own waiter object; without a Timer only a selection of its own
registration sets it. -/
theorem notifications_delivered_once (h : (program maxInstant).Run s₀ tr c) :
    DeliveredOnce tr c.mem c.pc := by
  have hh := (typed maxInstant Tid).history h
  have hsusp := suspensions maxInstant h
  refine ⟨⟨hh.queue, queue_sublist tr⟩, ?_, ?_, ?_, ?_, ?_, ?_, ?_, ?_, ?_, ?_⟩
  · intro t r past hs
    obtain ⟨m, pc, p, hr, hf⟩ := (typed maxInstant Tid).fires_of_suffix h hs
    rw [← ((typed maxInstant Tid).history hr).queue]
    exact hf.allows
  · intro t rs past hs
    obtain ⟨m, pc, p, hr, hf⟩ := (typed maxInstant Tid).fires_of_suffix h hs
    rw [← ((typed maxInstant Tid).history hr).queue]
    exact hf.allows
  · intro t out v now past hs
    obtain ⟨m, pc, p, hr, hf⟩ := (typed maxInstant Tid).fires_of_suffix h hs
    exact selections_of_returned hr hf
  · intro t d n past hs hd
    obtain ⟨m, pc, p, hr, hf⟩ := (typed maxInstant Tid).fires_of_suffix h hs
    exact notifies_of_selection hr hf hd
  · exact hh.taken_nodup
  · intro t a past hs
    obtain ⟨m, pc, p, hr, hf⟩ := (typed maxInstant Tid).fires_of_suffix h hs
    have hpast := (typed maxInstant Tid).history hr
    obtain ⟨g, hg, rfl⟩ := hpast.sig t a (List.mem_of_mem_head? hf.step.1)
    refine ⟨⟨g, hg, rfl⟩, fun g' hg' => ?_⟩
    exact (hpast.sinceTake t g hg g' hg').ne'
  · intro t a past hs
    obtain ⟨m, R, g, hpast, hlive, rfl, hreg, hset⟩ := woke_of_suffix h hs
    refine ⟨g, hlive, rfl, hpast.fresh t g hreg hset, fun u g' hu heq => ?_⟩
    obtain rfl := hpast.eq_of_waiter_eq (mem_made hu) (hpast.made_of_live hlive) heq
    exact ⟨registered_unique hpast.made_nodup hu (registered_of_live hlive), rfl⟩
  · intro t timed caller g hp
    rw [← hh.handed]
    exact hsusp.handed t timed g (by rw [hp]; rfl)
  · exact fun t a past hs hnot => selected_of_woke h hs hnot
  · have hnodup : (untimedWakes tr).Nodup := (untimedWakes_sublist tr).nodup hsusp.wakes_nodup
    have hsub : untimedWakes tr ⊆ (taken tr).map Registration.waiter := by
      intro a ha
      obtain ⟨t, past, hs, hnot⟩ := woke_of_mem_untimedWakes ha
      obtain ⟨g, hg, -, rfl⟩ := selected_of_woke h hs hnot
      exact List.mem_map_of_mem (taken_subset ((List.suffix_cons _ _).trans hs) hg)
    have hle := (hnodup.subperm hsub).length_le
    rwa [List.length_map] at hle

end Run

/-- Thread `false` waits twice for the value to be positive. Thread `true` selects the first
suspension by `notify_one`, and its signal ends it. -/
def selectedOnce : List (Threads.Event Bool (Option TimeError) (Choice ℕ Unit)
    (TimerEvent Bool)) :=
  [.choose false (.call (.waitWhile ⟨fun _ v => some (v == 0), fun v => (v - 1, some ())⟩)),
    .run false none, .run false none, .run false none, .run false none,
    .choose true (.call .notifyOne), .run true none, .run true none,
    .run false none, .run false none, .run false none, .run false none, .run false none]

theorem notifications_delivered_once_selected :
    ∃ tr, ∃ c : Threads.Conf (Mem ℕ Bool) Bool (Pc ℕ Unit), (program 100).Run ⟨0, 0, true⟩ tr c ∧
      taken tr = [⟨1, 0⟩] ∧ c.mem.registrations = [⟨2, 1⟩] ∧ untimedWakes tr = [0] ∧
      DeliveredOnce tr c.mem c.pc := by
  obtain ⟨tr, c, hr, hp, -⟩ := (program 100).threads.exists_run_of_play
    ((program 100).start ⟨0, 0, true⟩) selectedOnce
    (p := fun s => taken s.2 = [⟨1, 0⟩] ∧ s.1.mem.registrations = [⟨2, 1⟩] ∧
      untimedWakes s.2 = [0]) (by decide)
  simp only [decide_eq_true_eq] at hp
  exact ⟨tr, c, hr, hp.1, hp.2.1, hp.2.2, notifications_delivered_once hr⟩

end QubitLock.Blocking
