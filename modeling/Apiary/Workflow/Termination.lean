import Apiary.Core.Ranking
import Apiary.Workflow.Channel

/-!
# Every drive comes to an end

The steps of the scheduler goroutine and of the workers lower a rank with four
components, compared in this order: the retries left together with the loop-back
and the stop still to come, the steps that are pending or picked, the work of
what is in flight, and the place in the loop body.  While a drive goes on one of
the goroutines can move, so a drive whose workers return parks or ends.
-/

namespace Apiary.Workflow

open Config List Machine DriveState Bool

variable {ev : Event} {ids : List String} {w : Worker} {index now : ℕ} {phase : UnitPhase}
  {wr : WorkerResult}

/-- A step of the scheduler goroutine or of a worker. -/
def Event.inside : Event → Bool
  | .sched _ => true
  | .worker _ _ => true
  | _ => false

/-- A parked run is driven again. -/
def Event.reenters : Event → Bool
  | .resolve _ _ => true
  | .wake => true
  | _ => false

/-! ## The rank -/

def unitWork : UnitPhase → ℕ
  | .idle => 3
  | .spawned => 2
  | .running _ => 1
  | .finished _ => 0

def Worker.work (w : Worker) : ℕ := (w.units.map fun u => unitWork u.phase).sum + 2

namespace DriveState

open List

variable (s : DriveState)

def retriesLeft : ℕ :=
  2 * (retryBudget s.run.wf - s.run.retried) + (if s.loopTarget = "" then 0 else 1) +
    if s.run.stopped then 0 else 1

/-- A pending step that the current pass has not picked. -/
def unpicked (id : String) : Bool := s.run.state id = some .pending && id ∉ s.picks

def openSteps : ℕ := (order s.run.wf).countP s.unpicked + s.picks.length

def work : ℕ := (s.workers.map Worker.work).sum + s.resultCh.length

/-- Whether the next pass dispatches something. -/
def dispatches : Bool :=
  !s.termFail && s.loopTarget = "" && !s.run.stopped &&
    pickAllRunnable s.run.wf s.run.state s.run.activated ≠ []

/-- A pass with something to dispatch lowers the number of open steps, so the top
of the loop ranks low before such a pass and high before an empty one. -/
def phaseRank : ℕ :=
  match s.phase with
  | .top => if s.dispatches then 3 else 6
  | .dispatch [] => 5
  | .dispatch (_ :: _) => 2
  | .check => if s.inFlight = 0 then 4 else 1
  | .drain _ => 1
  | _ => 0

def rank : ℕ ×ₗ ℕ ×ₗ ℕ ×ₗ ℕ :=
  toLex (s.retriesLeft, toLex (s.openSteps, toLex (s.work, s.phaseRank)))

end DriveState

section Lex

variable {s t : DriveState}

theorem rank_lt_of_retries (hretries : t.retriesLeft < s.retriesLeft) : t.rank < s.rank :=
  lex_lt_of_lt hretries

variable (hretries : t.retriesLeft ≤ s.retriesLeft)

include hretries

theorem rank_lt_of_open (hopen : t.openSteps < s.openSteps) : t.rank < s.rank :=
  lex_lt_of_le_of_lt hretries (lex_lt_of_lt hopen)

theorem rank_lt_of_work (hopen : t.openSteps ≤ s.openSteps) (hwork : t.work < s.work) :
    t.rank < s.rank :=
  lex_lt_of_le_of_lt hretries
    (lex_lt_of_le_of_lt hopen (lex_lt_of_lt hwork))

theorem rank_lt_of_phase (hopen : t.openSteps ≤ s.openSteps) (hwork : t.work ≤ s.work)
    (hphase : t.phaseRank < s.phaseRank) : t.rank < s.rank :=
  lex_lt_of_le_of_lt hretries
    (lex_lt_of_le_of_lt hopen (lex_lt_of_le_of_lt hwork hphase))

end Lex

/-! ## Retries -/

section Steps

variable {e : Engine} {s t : DriveState}

/-- The first component never grows, and a granted or carried out loop-back
lowers it. -/
theorem retriesLeft_step (hs : WellFormed s) (ht : Budgeted t) (hinside : ev.reenters = false)
    (hstep : Workflow.step e s ev = some t) :
    t.retriesLeft < s.retriesLeft ∨ (t.retriesLeft ≤ s.retriesLeft ∧
        ChangesTo (fun st => st ≠ .pending) s.run.state t.run.state) := by
  have hwf := step_wf hstep
  have hbudget := ht.retried_le
  have hstop : (if t.run.stopped then 0 else 1) ≤ if s.run.stopped then 0 else 1 := by
    by_cases hev : ev = .stop
    · subst hev
      obtain ⟨-, hstep⟩ := Option.ite_none_right_eq_some.mp hstep
      rw [← Option.some.inj hstep]
      simp
    · rw [step_stopped hev hstep]
  rw [DriveState.retriesLeft, DriveState.retriesLeft, hwf]
  rw [hwf] at hbudget
  cases step_looped hstep with
  | kept _ hused hloop hresets hstate =>
    refine .inr ⟨?_, hstate⟩
    rw [retried_congr hwf hused]
    rcases hloop with hloop | hloop
    · rw [hloop]
      omega
    · rw [if_pos hloop]
      omega
  | retried now wr kind hphase hmem hfree hbudget' hused =>
    left
    have hretried : t.run.retried = s.run.retried + 1 :=
      retried_update hwf (mem_map_of_mem (hs.results wr hmem)) hused
    have hslot : (if t.loopTarget = "" then 0 else 1) ≤ 1 := by split <;> decide
    rw [if_pos hfree, hretried]
    omega
  | reset now hphase hloop hclear hresets hused =>
    left
    rw [if_neg hloop, if_pos hclear, retried_congr hwf hused]
    omega
  | woken => cases hinside

/-! ## Open steps -/

theorem countP_lt_countP {α : Type*} {p q : α → Bool} {l : List α}
    (himp : ∀ x ∈ l, p x = true → q x = true) {a : α} (ha : a ∈ l) (hq : q a = true)
    (hp : p a = false) : l.countP p < l.countP q := by
  induction l with
  | nil => exact absurd ha not_mem_nil
  | cons b l ih =>
    have hle : l.countP p ≤ l.countP q := countP_mono_left fun x hx => himp x (mem_cons_of_mem b hx)
    rw [countP_cons, countP_cons]
    rcases mem_cons.mp ha with rfl | hmem
    · rw [if_pos hq, if_neg (by simp [hp])]
      omega
    · have hlt := ih (fun x hx => himp x (mem_cons_of_mem b hx)) hmem
      have hhead : (if p b = true then 1 else 0) ≤ if q b = true then 1 else 0 := by
        split
        · rw [if_pos (himp b mem_cons_self ‹_›)]
        · exact Nat.zero_le _
      omega

theorem openSteps_of_outside (hphase : ∀ ids, s.phase ≠ .dispatch ids) :
    s.openSteps = (order s.run.wf).countP fun id => s.run.state id = some .pending := by
  have hpicks := picks_of_outside hphase
  have hsame : s.unpicked = fun id => decide (s.run.state id = some .pending) := by
    funext id
    simp [DriveState.unpicked, hpicks]
  rw [DriveState.openSteps, hsame, hpicks, length_nil, Nat.add_zero]

theorem openSteps_le (hs : ∀ ids, s.phase ≠ .dispatch ids) (ht : ∀ ids, t.phase ≠ .dispatch ids)
    (hwf : t.run.wf = s.run.wf)
    (hstate : ChangesTo (fun st => st ≠ .pending) s.run.state t.run.state) :
    t.openSteps ≤ s.openSteps := by
  rw [openSteps_of_outside hs, openSteps_of_outside ht, hwf]
  refine countP_mono_left fun id _ hpending => ?_
  simp only [decide_eq_true_eq] at hpending ⊢
  exact hstate.of_not_allowed (by simp) hpending

theorem countP_pending (s : DriveState) :
    (order s.run.wf).countP (fun id => s.run.state id = some .pending) =
      (order s.run.wf).countP s.unpicked +
        (order s.run.wf).countP fun id => s.run.state id = some .pending && id ∈ s.picks := by
  rw [countP_eq_countP_filter_add _ _ (fun id => decide (id ∉ s.picks)), countP_filter,
    countP_filter]
  have hunpicked : s.unpicked =
      fun id => decide (s.run.state id = some .pending) && !decide (id ∈ s.picks) := by
    funext id
    rw [DriveState.unpicked, decide_not]
  simp only [hunpicked, decide_not, Bool.not_not]

theorem openSteps_pick (hphase : s.phase = .top) :
    DriveState.openSteps { s with phase := .dispatch s.run.runnable } ≤ s.openSteps := by
  rw [openSteps_of_outside (s := s) (by simp [hphase])]
  have hpending := countP_pending { s with phase := .dispatch s.run.runnable }
  have hpicked : s.run.runnable.length ≤ (order s.run.wf).countP fun id =>
      s.run.state id = some .pending && id ∈ s.run.runnable := by
    conv_lhs => rw [DagRun.runnable, pickAllRunnable, ← countP_eq_length_filter]
    refine countP_mono_left fun id hid hrunnable => ?_
    have hmem : id ∈ s.run.runnable := mem_filter.mpr ⟨hid, by exact hrunnable⟩
    simp only [and_eq_true, decide_eq_true_eq] at hrunnable ⊢
    exact ⟨hrunnable.1.1, hmem⟩
  exact (Nat.add_le_add_left hpicked _).trans hpending.ge

/-- What a pass leaves when the limit is reached was counted already. -/
theorem countP_pending_le (hm : Metered s) :
    (order s.run.wf).countP (fun id => s.run.state id = some .pending) ≤ s.openSteps := by
  rw [countP_pending, DriveState.openSteps]
  refine Nat.add_le_add_left ?_ _
  rw [countP_eq_length_filter]
  refine (subperm_ext_iff.mpr fun id hid => ?_).length_le
  obtain ⟨-, hpick⟩ := mem_filter.mp hid
  simp only [and_eq_true, decide_eq_true_eq] at hpick
  exact (filter_sublist.count_le id).trans (hm.copies id hpick.2 hpick.1)

theorem openSteps_dispatch (hs : WellFormed s) {id : String}
    (hphase : s.phase = .dispatch (id :: ids)) {out : DriveState × Bool}
    (hout : Dispatched s (byID s.run.wf id) id out) (hnext : out.2 = false) :
    DriveState.openSteps { out.1 with phase := .dispatch ids } < s.openSteps := by
  have hid : id ∈ order s.run.wf := hs.picked _ hphase mem_cons_self
  have hnot := hout.not_pending hid hnext
  have hpicks : s.picks = id :: ids := by rw [picks, hphase]
  rw [DriveState.openSteps, DriveState.openSteps, hpicks, length_cons]
  change (order out.1.run.wf).countP _ + ids.length < _
  rw [hout.wf]
  have hle : (order s.run.wf).countP
      (DriveState.unpicked { out.1 with phase := .dispatch ids }) ≤
        (order s.run.wf).countP s.unpicked := by
    refine countP_mono_left fun other _ hother => ?_
    simp only [DriveState.unpicked, picks, and_eq_true, decide_eq_true_eq] at hother
    have hne : other ≠ id := fun heq => hnot (heq ▸ hother.1)
    have hold := hout.changes.of_not_allowed (by simp) hother.1
    have hrest : other ∉ ids := of_decide_eq_true hother.2
    simp [DriveState.unpicked, hpicks, hold, hne, hrest]
  omega

theorem cascadeSkip_self (wf : WorkflowConfig) (fuel : ℕ) (state : StateMap) {id : String}
    (hpending : state id = some .pending) :
    cascadeSkip wf (fuel + 1) state id id = some .skipped := by
  rw [cascadeSkip, if_neg (by simp [hpending])]
  have hself := Function.update_self id (some .skipped) state
  exact (foldl_skipDependent_cascades (cascadeSkip_cascades wf fuel) (order wf) hself).skipped hself

theorem foldl_skipIfUnreachable_changed {wf : WorkflowConfig} {activated : String → Bool}
    {acc : StateMap × Bool} (hfresh : acc.2 = false)
    (hchanged : (ids.foldl (skipIfUnreachable wf activated) acc).2 = true) :
    ∃ id ∈ ids, acc.1 id = some .pending ∧
      (ids.foldl (skipIfUnreachable wf activated) acc).1 id ≠ some .pending := by
  induction ids generalizing acc with
  | nil => nomatch hfresh.symm.trans hchanged
  | cons id ids ih =>
    rw [foldl_cons] at hchanged ⊢
    by_cases hskip : acc.1 id = some .pending && unreachable wf activated acc.1 id
    · have hstep : skipIfUnreachable wf activated acc id = (skipState wf acc.1 id, true) :=
        if_pos hskip
      simp only [and_eq_true, decide_eq_true_eq] at hskip
      refine ⟨id, mem_cons_self, hskip.1, ?_⟩
      rw [hstep]
      have hself : skipState wf acc.1 id id = some .skipped := cascadeSkip_self wf _ _ hskip.1
      have hpass := foldl_skipIfUnreachable_cascades wf activated ids (skipState wf acc.1 id, true)
      simp [hpass.skipped hself]
    · have hstep : skipIfUnreachable wf activated acc id = acc := if_neg hskip
      rw [hstep] at hchanged ⊢
      obtain ⟨other, hother, hpending, hafter⟩ := ih hfresh hchanged
      exact ⟨other, mem_cons_of_mem id hother, hpending, hafter⟩

/-- A pass that reports a change has skipped a pending step. -/
theorem skipUnreachable_changed {r : DagRun} (hchanged : (skipUnreachable r).2 = true) :
    ∃ id ∈ order r.wf, r.state id = some .pending ∧
      (skipUnreachable r).1.state id ≠ some .pending :=
  foldl_skipIfUnreachable_changed rfl hchanged

/-! ## Work in flight -/

theorem sum_map_set {α : Type*} (f : α → ℕ) {l : List α} {i : ℕ} {a : α} (hi : l[i]? = some a)
    (b : α) : ((l.set i b).map f).sum + f a = (l.map f).sum + f b := by
  obtain ⟨hlt, rfl⟩ := List.getElem?_eq_some_iff.mp hi
  have hset := ((set_perm_cons_eraseIdx hlt b).map f).sum_eq
  have hget := ((getElem_cons_eraseIdx_perm hlt).map f).sum_eq
  rw [map_cons, sum_cons] at hset hget
  omega

theorem setUnit_work {u : UnitRun} (hunit : w.units[index]? = some u)
    (hphase : unitWork phase < unitWork u.phase) : (w.setUnit index phase).work < w.work := by
  have hset : (w.setUnit index phase).units = w.units.set index { u with phase := phase } := by
    rw [Worker.setUnit, modify_eq_set_getElem?, hunit]
    rfl
  have hsum := sum_map_set (fun u => unitWork u.phase) hunit { u with phase := phase }
  rw [Worker.work, Worker.work, hset]
  simp only at hsum
  omega

theorem setUnit_lowers {unit : ℕ} {u : UnitRun} (hw : s.workers[index]? = some w)
    (hunit : w.units[unit]? = some u) (hphase : unitWork phase < unitWork u.phase) :
    (s.setUnit index w unit phase).work < s.work := by
  have hsum := sum_map_set Worker.work hw (w.setUnit unit phase)
  have hlower := setUnit_work hunit hphase
  rw [DriveState.work, DriveState.work, DriveState.setUnit]
  dsimp only
  omega

theorem workerStepped_work {act : WorkerAct} (hw : s.workers[index]? = some w)
    (hstep : WorkerStepped e s index w act t) : t.work < s.work := by
  cases hstep with
  | spawn unit u hunit hphase => exact setUnit_lowers hw hunit (by simp [hphase, unitWork])
  | start unit u hunit hphase =>
    obtain ⟨rows, nextRow, history, heq⟩ := startUnit_eq s w u
    rw [heq]
    refine setUnit_lowers hw hunit ?_
    rw [hphase, startUnit]
    split <;> simp [unitWork]
  | finish unit u row res hunit hphase =>
    obtain ⟨rows, heq⟩ := finishUnit_eq s w u row res
    rw [heq]
    refine setUnit_lowers hw hunit ?_
    rw [hphase, finishUnit]
    dsimp only
    split <;> simp [unitWork]
  | deliver =>
    obtain ⟨hlt, rfl⟩ := List.getElem?_eq_some_iff.mp hw
    have hsum := ((getElem_cons_eraseIdx_perm hlt).map Worker.work).sum_eq
    rw [map_cons, sum_cons] at hsum
    have htwo : 2 ≤ s.workers[index].work := Nat.le_add_left _ _
    rw [DriveState.work, DriveState.work, length_append, length_singleton]
    dsimp only
    omega

/-! ## The rank falls -/

/-- Moving on in the loop body without changing anything else. -/
theorem rank_lt_of_move {phase : Phase} (hm : Metered s) (hphase : ∀ ids, phase ≠ .dispatch ids)
    (hlower : DriveState.phaseRank { s with phase := phase } < s.phaseRank) :
    DriveState.rank { s with phase := phase } < s.rank := by
  refine rank_lt_of_phase le_rfl ?_ le_rfl hlower
  rw [openSteps_of_outside hphase]
  exact countP_pending_le hm

theorem phaseRank_check_le (s : DriveState) :
    DriveState.phaseRank { s with phase := .check } ≤ 4 := by
  simp only [DriveState.phaseRank]
  split <;> decide

theorem top_lowers (hm : Metered s) (hphase : s.phase = .top) (hstep : schedStep e now s = some t) :
    t.rank < s.rank := by
  rcases schedStep_top hphase hstep with ⟨rfl, hfail, hloop, hstopped⟩ | ⟨rfl, hflags⟩
  · refine rank_lt_of_phase le_rfl (openSteps_pick hphase) le_rfl ?_
    cases hpicks : pickAllRunnable s.run.wf s.run.state s.run.activated with
    | nil => simp [DriveState.phaseRank, hphase, DriveState.dispatches, hpicks]
    | cons =>
      simp [DriveState.phaseRank, hphase, DriveState.dispatches, hpicks, hfail, hloop, hstopped]
  · refine rank_lt_of_move hm (by simp) ?_
    have hidle : s.dispatches = false := by
      rw [eq_false_iff]
      intro hdispatches
      simp only [DriveState.dispatches, and_eq_true, not_eq_true',
        decide_eq_true_eq] at hdispatches
      exact hflags ⟨hdispatches.1.1.1, hdispatches.1.1.2, hdispatches.1.2⟩
    have htop : s.phaseRank = 6 := by simp [DriveState.phaseRank, hphase, hidle]
    rw [htop]
    exact (phaseRank_check_le s).trans_lt (by decide)

theorem dispatch_lowers (hs : WellFormed s) (hm : Metered s)
    (hretries : t.retriesLeft ≤ s.retriesLeft) (hphase : s.phase = .dispatch ids)
    (hstep : schedStep e now s = some t) : t.rank < s.rank := by
  cases ids with
  | nil =>
    simp only [schedStep, hphase] at hstep
    rw [← Option.some.inj hstep]
    refine rank_lt_of_move hm (by simp) ?_
    have hrank : s.phaseRank = 5 := by simp [DriveState.phaseRank, hphase]
    rw [hrank]
    exact (phaseRank_check_le s).trans_lt (by decide)
  | cons id =>
    have hnext := schedStep_dispatch hphase hstep
    have hout := dispatchStep_cases e s id
    cases hfull : (dispatchStep e s id).2 with
    | true =>
      rw [hout.eq_of_full hfull, if_pos rfl] at hnext
      subst hnext
      refine rank_lt_of_move hm (by simp) ?_
      simp [DriveState.phaseRank, hphase, dispatchStep_full hfull]
    | false =>
      rw [hfull, if_neg (by decide)] at hnext
      subst hnext
      exact rank_lt_of_open hretries (openSteps_dispatch hs hphase hout hfull)

theorem quiesce_lowers (hm : Metered s) (hphase : s.phase = .check) (hnone : s.inFlight = 0) :
    s.quiesce.rank < s.rank := by
  have hrank : s.phaseRank = 4 := by simp [DriveState.phaseRank, hphase, hnone]
  have hended : ∀ outcome, DriveState.rank { s with phase := .ended outcome } < s.rank := by
    intro outcome
    refine rank_lt_of_move hm (by simp) ?_
    rw [hrank]
    exact (by decide : 0 < 4)
  rw [quiesce]
  split
  · exact hended _
  · rename_i hstopped
    split
    · exact hended _
    · rename_i hfail
      split
      · rename_i hloop
        refine rank_lt_of_retries ?_
        have hretried : (s.run.resetLoop s.loopTarget).retried = s.run.retried :=
          retried_congr rfl rfl
        simp only [DriveState.retriesLeft]
        rw [hretried, if_pos trivial, if_neg hloop]
        change 2 * (retryBudget s.run.wf - s.run.retried) + 0 + (if s.run.stopped then 0 else 1) < _
        omega
      · rename_i hloop
        dsimp only
        split
        · rename_i hchanged
          refine rank_lt_of_open le_rfl ?_
          rw [openSteps_of_outside (by simp), openSteps_of_outside (s := s) (by simp [hphase])]
          obtain ⟨id, hid, hpending, hafter⟩ := skipUnreachable_changed hchanged
          refine countP_lt_countP (fun other _ hother => ?_) hid (by simpa using hpending)
            (by simpa using hafter)
          simp only [decide_eq_true_eq] at hother ⊢
          exact (skipUnreachable_skips s.run).changes.of_not_allowed (by simp) hother
        · split
          · rename_i hrunnable
            refine rank_lt_of_move hm (by simp) ?_
            rw [hrank]
            have hdispatches : DriveState.dispatches { s with phase := .top } = true := by
              simp only [DriveState.dispatches]
              simpa using ⟨⟨⟨by simpa using hfail, by simpa using hloop⟩, by simpa using hstopped⟩,
                hrunnable⟩
            simp [DriveState.phaseRank, hdispatches]
          · exact hended _

theorem Received.frame (hreceived : Received e s wr t) :
    t.workers = s.workers ∧ t.resultCh = s.resultCh ∧ ∀ ids, t.phase ≠ .dispatch ids := by
  cases hreceived with
  | applied hstopped hparks t happlied =>
    obtain ⟨_, _, _, rfl⟩ := happlied.eq
    exact ⟨rfl, rfl, by simp⟩
  | _ => exact ⟨rfl, rfl, by simp⟩

theorem take_work {rest : List WorkerResult} (hresult : s.resultCh = wr :: rest)
    (hworkers : t.workers = s.workers) (hrest : t.resultCh = rest) : t.work < s.work := by
  rw [DriveState.work, DriveState.work, hworkers, hrest, hresult, length_cons]
  omega

theorem schedStep_lowers (hs : WellFormed s) (hm : Metered s) (ht : Budgeted t)
    (hstep : schedStep e now s = some t) : t.rank < s.rank := by
  have hrun : Workflow.step e s (.sched now) = some t := hstep
  have hwf : t.run.wf = s.run.wf := step_wf hrun
  rcases retriesLeft_step hs ht rfl hrun with hlower | ⟨hretries, hstate⟩
  · exact rank_lt_of_retries hlower
  · cases hphase : s.phase with
    | top => exact top_lowers hm hphase hstep
    | dispatch => exact dispatch_lowers hs hm hretries hphase hstep
    | check =>
      rcases schedStep_check hphase hstep with ⟨hnone, rfl⟩ | ⟨hsome, rfl⟩
      · exact quiesce_lowers hm hphase hnone
      · refine rank_lt_of_move hm (by simp) ?_
        simp [DriveState.phaseRank, hphase, hsome]
    | recv =>
      cases hresult : s.resultCh with
      | nil => simp [schedStep, hphase, hresult] at hstep
      | cons =>
        cases schedStep_cases hstep with
        | receive wr' rest' hphase' hresult' t hreceived =>
          obtain ⟨hworkers, hch, houtside⟩ := hreceived.frame
          exact rank_lt_of_work hretries
            (openSteps_le (by simp [hphase]) houtside hwf hstate)
            (take_work hresult' hworkers hch)
        | _ => simp_all
    | drain =>
      cases schedStep_cases hstep with
      | discard wr' dropped rest hphase' hsome hresult =>
        exact rank_lt_of_work hretries
          (openSteps_le (by simp [hphase]) (by simp [DriveState.take, hphase]) hwf hstate)
          (take_work hresult rfl rfl)
      | park =>
        refine rank_lt_of_phase hretries
          (openSteps_le (by simp [hphase]) (by simp [DriveState.park]) hwf hstate) le_rfl ?_
        simp [DriveState.phaseRank, hphase, DriveState.park]
      | _ => simp_all
    | parked | ended => simp [schedStep, hphase] at hstep

theorem stop_rank_le (s : DriveState) :
    DriveState.rank { s with run := { s.run with stopped := true } } ≤ s.rank := by
  cases hstopped : s.run.stopped with
  | true =>
    have hsame : { s.run with stopped := true } = s.run := by rw [← hstopped]
    rw [hsame]
  | false =>
    refine (rank_lt_of_retries ?_).le
    have hretried : DagRun.retried { s.run with stopped := true } = s.run.retried :=
      retried_congr rfl rfl
    simp only [DriveState.retriesLeft]
    rw [hretried, if_pos trivial, hstopped, if_neg Bool.false_ne_true]
    omega

theorem step_rank (hs : WellFormed s) (hm : Metered s) (ht : Budgeted t)
    (hreenters : ev.reenters = false) (hstep : Workflow.step e s ev = some t) :
    t.rank ≤ s.rank ∧ (ev.inside = true → t.rank < s.rank) := by
  cases step_cases hstep with
  | sched =>
    have hlower := schedStep_lowers hs hm ht hstep
    exact ⟨hlower.le, fun _ => hlower⟩
  | worker index act w hw t hworker =>
    obtain ⟨_, _, _, _, _, heq⟩ := workerStepped_eq hworker
    have hlower : t.rank < s.rank :=
      rank_lt_of_work (heq ▸ le_rfl) (heq ▸ le_rfl) (workerStepped_work hw hworker)
    exact ⟨hlower.le, fun _ => hlower⟩
  | cancel => exact ⟨le_rfl, fun h => by cases h⟩
  | stop => exact ⟨stop_rank_le s, fun h => by cases h⟩
  | resolve | wake => cases hreenters

/-! ## Progress -/

theorem exists_first_idle {units : List UnitRun} (hidle : units.any UnitRun.isIdle = true) :
    ∃ (index : ℕ) (u : UnitRun), units[index]? = some u ∧ u.phase = .idle ∧
      (units.take index).all (fun u => !u.isIdle) = true := by
  induction units with
  | nil => cases hidle
  | cons u units ih =>
    cases hphase : u.phase with
    | idle => exact ⟨0, u, rfl, hphase, rfl⟩
    | _ =>
      have hbusy : u.isIdle = false := by simp [UnitRun.isIdle, hphase]
      rw [any_cons, hbusy, Bool.false_or] at hidle
      obtain ⟨index, first, hget, hfirst, hbefore⟩ := ih hidle
      exact ⟨index + 1, first, hget, hfirst, by simpa [hbusy] using hbefore⟩

theorem worker_moves (e : Engine) (hw : s.workers[index]? = some w) :
    ∃ act, (workerStep e s index act).isSome = true := by
  cases hactive : w.units.any UnitRun.isActive with
  | true =>
    obtain ⟨u, hu, hrunning⟩ := any_eq_true.mp hactive
    obtain ⟨unit, hunit⟩ := mem_iff_getElem?.mp hu
    obtain ⟨step, phase⟩ := u
    cases phase with
    | idle | finished => cases hrunning
    | spawned => exact ⟨.start unit, by simp [workerStep, hw, hunit]⟩
    | running => exact ⟨.finish unit {}, by simp [workerStep, hw, hunit]⟩
  | false =>
    have hquiet : w.units.all (fun u => !u.isActive) = true := by
      simpa [any_eq_false] using hactive
    cases hdeliver : w.mayDeliver with
    | true => exact ⟨.deliver, by simp [workerStep, hw, hdeliver]⟩
    | false =>
      -- no item is running and the worker may not report, so an item is left to spawn
      rw [Worker.mayDeliver, hquiet, Bool.true_and, Bool.or_eq_false_iff] at hdeliver
      have hidle : w.units.any UnitRun.isIdle = true := by
        simpa [all_eq_false] using hdeliver.1
      obtain ⟨unit, u, hunit, hphase, hbefore⟩ := exists_first_idle hidle
      obtain ⟨step, phase⟩ := u
      subst hphase
      have hnone : w.units.filter UnitRun.isActive = [] := by
        simpa [filter_eq_nil_iff] using hactive
      have hspawn : w.maySpawn unit = true := by
        rw [Worker.maySpawn, hbefore, hdeliver.2, hnone]
        simp
      exact ⟨.spawn unit, by simp [workerStep, hw, hunit, hspawn]⟩

/-- While a drive goes on, one of its goroutines can move. -/
theorem drive_moves (e : Engine) (hs : WellFormed s) (hm : Metered s)
    (hdriving : s.phase.driving = true) :
    ∃ ev, ev.inside = true ∧ (Workflow.step e s ev).isSome = true := by
  have hworker : s.inFlight ≠ 0 → s.resultCh = [] →
      ∃ ev, ev.inside = true ∧ (Workflow.step e s ev).isSome = true := by
    intro hsome hempty
    have hcount := hs.count
    rw [hempty, length_nil, Nat.add_zero] at hcount
    obtain ⟨w, hw⟩ := exists_mem_of_length_pos (Nat.pos_of_ne_zero (hcount ▸ hsome))
    obtain ⟨index, hindex⟩ := mem_iff_getElem?.mp hw
    obtain ⟨act, hact⟩ := worker_moves e hindex
    exact ⟨.worker index act, rfl, hact⟩
  have hsched : (schedStep e 0 s).isSome = true →
      ∃ ev, ev.inside = true ∧ (Workflow.step e s ev).isSome = true :=
    fun hstep => ⟨.sched 0, rfl, hstep⟩
  cases hphase : s.phase with
  | top | check =>
    refine hsched ?_
    simp only [schedStep, hphase]
    split <;> rfl
  | dispatch ids => cases ids <;> exact hsched (by simp [schedStep, hphase])
  | recv =>
    cases hresult : s.resultCh with
    | nil => exact hworker (hm.receiving hphase) hresult
    | cons => exact hsched (by simp [schedStep, hphase, hresult])
  | drain =>
    by_cases hnone : s.inFlight = 0
    · exact hsched (by simp [schedStep, hphase, hnone])
    · cases hresult : s.resultCh with
      | nil => exact hworker hnone hresult
      | cons => exact hsched (by simp [schedStep, hphase, hresult, hnone])
  | parked | ended => simp [hphase, Phase.driving] at hdriving

/-- The state of a drive that these results rest on. -/
structure Driven (s : DriveState) : Prop where
  wellFormed : WellFormed s
  indexed : Indexed s
  budgeted : Budgeted s
  metered : Metered s

theorem Driven.step (hd : Driven s) (hstep : Workflow.step e s ev = some t) : Driven t where
  wellFormed := hd.wellFormed.step hstep
  indexed := hd.indexed.step hd.wellFormed hstep
  budgeted := hd.budgeted.step hd.wellFormed hd.indexed hstep
  metered := hd.metered.step hd.wellFormed hstep

/-- In an endless run that is not entered again, the goroutines of the drive come
to rest. -/
theorem drive_rests (run : Machine.EndlessRun (Workflow.step e)) (hd : Driven (run.state 0))
    (hreenters : ∀ n, (run.event n).reenters = false) :
    ∃ n, ∀ m, n ≤ m → ¬ (run.event m).inside = true := by
  have hdriven : ∀ n, Driven (run.state n) :=
    run.invariant (fun s ev t hs hstep => hs.step hstep) hd
  have hrank : ∀ n, (run.state (n + 1)).rank ≤ (run.state n).rank ∧
      ((run.event n).inside = true → (run.state (n + 1)).rank < (run.state n).rank) :=
    fun n => step_rank (hdriven n).wellFormed (hdriven n).metered (hdriven (n + 1)).budgeted
      (hreenters n) (run.next n)
  exact run.finally_still (fun ev => ev.inside = true) (fun n => (hrank n).1) fun n => (hrank n).2

end Steps

end Apiary.Workflow
