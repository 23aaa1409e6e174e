import Apiary.Workflow.Termination

/-!
# How often a step executes

The machine here counts, beside the scheduler, how often each step was started
and how often it was woken.  A start uses up a pending state, and a step becomes
pending again only through a retry or a wake, so the counts of a whole run are
bounded by the retry budgets.
-/

namespace Apiary.Workflow

open Config List DriveState

variable {now : ℕ} {s : DriveState}

structure Tally where
  drive : DriveState
  starts : String → ℕ := fun _ => 0
  wakes : String → ℕ := fun _ => 0

/-- The step an event starts: a split it routes, an approval it asks for, or a
step it hands to a worker. -/
def startedBy (s t : DriveState) : Event → Option String
  | .sched _ =>
    match s.phase with
    | .dispatch (id :: _) => if s.history.length < t.history.length then some id else none
    | _ => none
  | _ => none

def wokenBy (s : DriveState) : Event → Option String
  | .wake => some s.run.waitingStep
  | _ => none

def countOne (counts : String → ℕ) (hit : Option String) (id : String) : ℕ :=
  counts id + if hit = some id then 1 else 0

def Tally.step (e : Engine) (c : Tally) (ev : Event) : Option Tally :=
  (Workflow.step e c.drive ev).map fun t =>
    { drive := t
      starts := countOne c.starts (startedBy c.drive t ev)
      wakes := countOne c.wakes (wokenBy c.drive ev) }

/-- The starts of a step that are still to come before it has to be retried or
woken; a loop-back that waits to be carried out may make any step pending. -/
def DriveState.due (s : DriveState) (id : String) : ℕ :=
  if id ∈ s.picks then s.picks.count id
  else if s.run.state id = some .pending ∨ s.loopTarget ≠ "" then (order s.run.wf).count id
  else 0

section Steps

variable {e : Engine} {s t : DriveState}

theorem due_le (hm : Metered s) (id : String) : s.due id ≤ (order s.run.wf).count id := by
  rw [due]
  split
  · exact (Nat.le_add_left _ _).trans (hm.room id)
  · split
    · exact le_rfl
    · exact Nat.zero_le _

/-- A pending step is due, whether the pass has picked it or not. -/
theorem pending_due (hm : Metered s) {id : String} (hpending : s.run.state id = some .pending) :
    (order s.run.wf).count id ≤ s.due id := by
  rw [due]
  split
  · exact hm.copies id ‹_› hpending
  · rw [if_pos (.inl hpending)]

theorem due_outside (hphase : ∀ ids, t.phase ≠ .dispatch ids) (id : String) :
    t.due id = if t.run.state id = some .pending ∨ t.loopTarget ≠ "" then (order t.run.wf).count id
      else 0 := by
  rw [due, picks_of_outside hphase, if_neg not_mem_nil]

section

variable (hloop : t.loopTarget = s.loopTarget ∨ t.loopTarget = "")

include hloop

theorem due_kept (hm : Metered s) (hwf : t.run.wf = s.run.wf)
    (hphase : ∀ ids, t.phase ≠ .dispatch ids) {id : String}
    (hstate : t.run.state id = some .pending → s.run.state id = some .pending) :
    t.due id ≤ s.due id := by
  rw [due_outside hphase]
  split_ifs with hdue
  · rw [hwf]
    rcases hdue with hpending | hslot
    · exact pending_due hm (hstate hpending)
    · have hsame : s.loopTarget ≠ "" := hloop.resolve_right hslot ▸ hslot
      have houtside : ∀ ids, s.phase ≠ .dispatch ids :=
        fun ids hdispatch => hsame (hm.flags ids hdispatch).2
      rw [due_outside houtside, if_pos (.inr hsame)]
  · exact Nat.zero_le _

omit hloop in
theorem startedBy_eq_none (hphase : ∀ id ids, s.phase ≠ .dispatch (id :: ids)) :
    startedBy s t (.sched now) = none := by
  rw [startedBy]
  split
  · exact absurd ‹_› (hphase _ _)
  · rfl

omit hloop in
theorem dispatch_due (hs : WellFormed s) (hm : Metered s) {id : String} {ids : List String}
    (hphase : s.phase = .dispatch (id :: ids)) (hstep : schedStep e now s = some t)
    (other : String) :
    t.due other + (if startedBy s t (.sched now) = some other then 1 else 0) ≤ s.due other := by
  have hid : id ∈ order s.run.wf := hs.picked _ hphase mem_cons_self
  have hpicks : s.picks = id :: ids := by rw [picks, hphase]
  have hout := dispatchStep_cases e s id
  have hnext := schedStep_dispatch hphase hstep
  cases hfull : (dispatchStep e s id).2 with
  | true =>
    rw [hout.eq_of_full hfull, if_pos rfl] at hnext
    subst hnext
    have hidle : startedBy s { s with phase := .check } (.sched now) = none := by
      simp [startedBy, hphase]
    rw [hidle, if_neg (by simp), Nat.add_zero]
    exact due_kept (s := s) (t := { s with phase := .check }) (.inl rfl) hm rfl (by simp) fun h => h
  | false =>
    rw [hfull, if_neg (by decide)] at hnext
    generalize dispatchStep e s id = out at hout hfull hnext
    have hnot := hout.not_pending hid hfull
    have hslot : t.loopTarget = "" := by
      rw [hnext]
      exact hout.flags.2.1.trans (hm.flags _ hphase).2
    have hpicked : t.picks = ids := by rw [hnext, picks]
    have hdue : t.due other = if other ∈ ids then ids.count other
        else if out.1.run.state other = some .pending then (order s.run.wf).count other else 0 := by
      rw [due, hpicked, hslot, hnext, hout.wf]
      simp
    by_cases heq : other = id
    · subst heq
      have hbefore : s.due other = ids.count other + 1 := by
        rw [due, hpicks, if_pos mem_cons_self, count_cons_self]
      have hafter : t.due other ≤ ids.count other := by
        rw [hdue, if_neg hnot]
        split
        · exact le_rfl
        · exact Nat.zero_le _
      rw [hbefore]
      refine Nat.add_le_add hafter ?_
      split <;> decide
    · have hstarted : startedBy s t (.sched now) ≠ some other := by
        simp only [startedBy, hphase]
        split
        · simpa using Ne.symm heq
        · simp
      rw [if_neg hstarted, Nat.add_zero, hdue]
      split
      · rename_i hmem
        rw [due, hpicks, if_pos (mem_cons_of_mem id hmem),
          count_cons_of_ne (Ne.symm heq)]
      · split_ifs with hpending
        · exact pending_due hm (hout.changes.of_not_allowed (by simp) hpending)
        · exact Nat.zero_le _

omit hloop in
theorem pick_due (hphase : s.phase = .top) (id : String) :
    due { s with phase := .dispatch s.run.runnable } id ≤ s.due id := by
  rw [due_outside (t := s) (by simp [hphase]), due]
  split
  · rename_i hmem
    have hpending := (mem_filter.mp hmem).2
    simp only [Bool.and_eq_true, decide_eq_true_eq] at hpending
    rw [if_pos (.inl hpending.1.1)]
    exact filter_sublist.count_le id
  · exact le_rfl

theorem schedStep_due (hs : WellFormed s) (hm : Metered s) (hstep : schedStep e now s = some t)
    (hstate : ChangesTo (fun st => st ≠ .pending) s.run.state t.run.state) (id : String) :
    t.due id + (if startedBy s t (.sched now) = some id then 1 else 0) ≤ s.due id := by
  have hrun : Workflow.step e s (.sched now) = some t := hstep
  have hwf : t.run.wf = s.run.wf := step_wf hrun
  have hmoved : (∀ id ids, s.phase ≠ .dispatch (id :: ids)) → (∀ ids, t.phase ≠ .dispatch ids) →
      t.due id + (if startedBy s t (.sched now) = some id then 1 else 0) ≤ s.due id := by
    intro hphase houtside
    rw [startedBy_eq_none hphase, if_neg (by simp), Nat.add_zero]
    exact due_kept hloop hm hwf houtside (hstate.of_not_allowed (by simp))
  cases schedStep_cases hstep with
  | pick hphase =>
    rw [startedBy_eq_none (by simp [hphase]), if_neg (by simp), Nat.add_zero]
    exact pick_due hphase id
  | dispatch other ids hphase => exact dispatch_due hs hm hphase hstep id
  | quiesce hphase hnone t hquiesced => exact hmoved (by simp [hphase]) hquiesced.outside.1
  | receive wr rest hphase hresult t hreceived => exact hmoved (by simp [hphase]) hreceived.frame.2.2
  | hold hphase | picked hphase | await hphase => exact hmoved (by simp [hphase]) (by simp)
  | discard wr dropped rest hphase =>
    exact hmoved (by simp [hphase]) (by simp [DriveState.take, hphase])
  | park wr hphase => exact hmoved (by simp [hphase]) (by simp [DriveState.park])

theorem step_due (hs : WellFormed s) (hm : Metered s) {ev : Event}
    (hstep : Workflow.step e s ev = some t)
    (hstate : ChangesTo (fun st => st ≠ .pending) s.run.state t.run.state) (id : String) :
    t.due id + (if startedBy s t ev = some id then 1 else 0) ≤ s.due id := by
  cases step_cases hstep with
  | sched => exact schedStep_due hloop hs hm hstep hstate id
  | worker index act w hw t hworker =>
    obtain ⟨_, _, _, _, _, rfl⟩ := workerStepped_eq hworker
    exact le_rfl
  | cancel | stop => exact le_rfl
  | resolve | wake =>
    exact due_kept hloop hm (step_wf hstep) (by simp) (hstate.of_not_allowed (by simp))

end

/-- What was started and what is due, against the retries and wakes of a run. -/
def Tallied (c : Tally) : Prop :=
  ∀ id, c.starts id + c.drive.due id ≤
    (order c.drive.run.wf).count id * (1 + c.drive.run.retried + c.wakes id)

theorem Tallied.step {c d : Tally} (hc : Tallied c) (hs : Driven c.drive) {ev : Event}
    (hstep : c.step e ev = some d) : Tallied d := by
  obtain ⟨t, hdrive, rfl⟩ := Option.map_eq_some_iff.mp hstep
  have ht := hs.step hdrive
  have hwf := step_wf hdrive
  intro id
  have hold := hc id
  have hlimit := due_le ht.metered id
  simp only [countOne]
  rw [hwf] at hlimit ⊢
  cases step_looped hdrive with
  | kept _ hused hloop hresets hstate =>
    have hdue := step_due hloop hs.wellFormed hs.metered hdrive hstate id
    have hmono : (order c.drive.run.wf).count id * (1 + c.drive.run.retried + c.wakes id) ≤
        (order c.drive.run.wf).count id * (1 + c.drive.run.retried +
          (c.wakes id + if wokenBy c.drive ev = some id then 1 else 0)) :=
      Nat.mul_le_mul_left _ (by omega)
    rw [retried_congr hwf hused]
    omega
  | retried now wr kind hphase hmem hfree hbudget hused =>
    have hmore : t.run.retried = c.drive.run.retried + 1 :=
      retried_update hwf (mem_map_of_mem (hs.wellFormed.results wr hmem)) hused
    have hsum : 1 + (c.drive.run.retried + 1) + c.wakes id =
        1 + c.drive.run.retried + c.wakes id + 1 := by omega
    rw [startedBy_eq_none (by simp [hphase]), if_neg (by simp), if_neg (by simp [wokenBy]), hmore]
    simp only [Nat.add_zero]
    rw [hsum, Nat.mul_succ]
    omega
  | reset now hphase hloop hclear hresets hused =>
    have hdue : c.drive.due id = (order c.drive.run.wf).count id := by
      rw [due_outside (by simp [hphase]), if_pos (.inr hloop)]
    rw [startedBy_eq_none (by simp [hphase]), if_neg (by simp), retried_congr hwf hused,
      if_neg (by simp [wokenBy])]
    simp only [Nat.add_zero]
    omega
  | woken htop hused hloop hresets hstate =>
    have hidle : startedBy c.drive t .wake = none := rfl
    rw [retried_congr hwf hused, hidle, if_neg (by simp), Nat.add_zero]
    by_cases heq : id = c.drive.run.waitingStep
    · rw [if_pos (by rw [wokenBy, heq]), ← Nat.add_assoc, Nat.mul_succ]
      omega
    · have hne : wokenBy c.drive .wake ≠ some id := by
        simpa [wokenBy] using Ne.symm heq
      have hdue : t.due id ≤ c.drive.due id := by
        refine due_kept (.inl hloop) hs.metered hwf (by simp [htop]) fun hpending => ?_
        rwa [hstate, Function.update_of_ne heq] at hpending
      rw [if_neg hne, Nat.add_zero]
      omega

end Steps

/-! ## Starts -/

theorem restoreRow_used (r : DagRun) (sr : StepRun) : (restoreRow r sr).used = r.used := by
  rw [restoreRow]
  split
  · rfl
  · split
    · split <;> rfl
    · split
      · rw [restoreParallelChild]
        split <;> rfl
      · rfl

theorem restoreCachedSteps_used (rows : List StepRun) (r : DagRun) :
    (restoreCachedSteps r rows).used = r.used := by
  induction rows generalizing r with
  | nil => rfl
  | cons sr rows ih => exact (ih (restoreRow r sr)).trans (restoreRow_used r sr)

/-- A drive starts with every budget unused. -/
theorem Initial.unused (hinit : Initial s) :
    (∀ key, s.run.used key = 0) ∧ s.history = [] ∧ s.loopTarget = "" := by
  have hfresh : ∀ (instID : String) (wf : WorkflowConfig) (cell : SourceItem)
      (seed : List MemoryStep) (event : String → Option String) (key : EdgeKey),
      (initDAG instID wf cell seed event).used key = 0 := by
    rintro instID wf cell seed event ⟨_ | _, id⟩ <;> rfl
  have hrestored : ∀ (instID : String) (wf : WorkflowConfig) (cell : SourceItem)
      (rows : List StepRun) (key : EdgeKey),
      (restoreCachedSteps (initDAG instID wf cell [] fun _ => none) rows).used key = 0 := by
    intro instID wf cell rows key
    rw [restoreCachedSteps_used]
    exact hfresh instID wf cell [] (fun _ => none) key
  cases hinit with
  | fresh instID wf cell seed event => exact ⟨hfresh instID wf cell seed event, rfl, rfl⟩
  | resumed instID wf cell selected => exact ⟨hrestored instID wf cell selected, rfl, rfl⟩
  | approval instID wf cell prior parkedAt nextRow s hpark =>
    simp only [rehydrateApproval, Option.map_eq_some_iff] at hpark
    obtain ⟨id, -, rfl⟩ := hpark
    exact ⟨hrestored instID wf cell prior, rfl, rfl⟩
  | wait instID wf cell prior now nextRow s hpark =>
    simp only [rehydrateWait, Option.map_eq_some_iff] at hpark
    obtain ⟨park, -, rfl⟩ := hpark
    exact ⟨hrestored instID wf cell prior, rfl, rfl⟩

theorem Initial.driven (hinit : Initial s) : Driven s := by
  obtain ⟨hused, hhistory, hloop⟩ := hinit.unused
  refine ⟨hinit.started.wellFormed, hinit.started.indexed, ⟨?_, ?_⟩, hinit.started.metered⟩
  · intro key
    rw [hused]
    exact Nat.zero_le _
  · rw [hhistory, if_pos hloop]
    exact Nat.zero_le _

theorem Initial.tallied (hinit : Initial s) : Tallied { drive := s } := by
  have hretried : s.run.retried = 0 := Finset.sum_eq_zero fun key _ => hinit.unused.1 key
  intro id
  have hdue := due_le hinit.started.metered id
  simpa [hretried] using hdue

/-- Over the whole life of a run, from any start and through any parks and wakes,
whatever the workflow, the concurrency limit, the results and the interleaving:
the result channel always has room for the next send; a drive that goes on can
move, and its goroutines move only finitely often, so it parks or ends once its
workers return; the loop-backs carried out are at most the sum of all retry
budgets; and the steps declared under an id are started at most once each, and
once more for each retry and for each wake of that id.  Where no id is declared
twice, that bounds the executions of the step. -/
theorem drive_terminates (e : Engine) {s : DriveState} {es : List Event} {c : Tally}
    (hinit : Initial s) (hrun : Machine.exec (Tally.step e) { drive := s } es = some c) :
    c.drive.resultCh.length < channelCapacity c.drive.run.wf ∧ (c.drive.phase.driving = true →
        ∃ ev, ev.inside = true ∧ (Workflow.step e c.drive ev).isSome = true) ∧
      (∀ run : Machine.EndlessRun (Workflow.step e), run.state 0 = c.drive →
        (∀ n, (run.event n).reenters = false) →
        ∃ n, ∀ m, n ≤ m → ¬ (run.event m).inside = true) ∧
      resetCount c.drive.history ≤ retryBudget c.drive.run.wf ∧
      (∀ id, c.starts id ≤ (order c.drive.run.wf).count id *
        (1 + retryBudget c.drive.run.wf + c.wakes id)) ∧
      ((order c.drive.run.wf).Nodup →
        ∀ id, c.starts id ≤ 1 + retryBudget c.drive.run.wf + c.wakes id) := by
  have hkept : ∀ c ev d, Driven c.drive ∧ Tallied c → Tally.step e c ev = some d →
      Driven d.drive ∧ Tallied d := by
    intro c ev d hc hstep
    have htallied := hc.2.step hc.1 hstep
    obtain ⟨t, hdrive, rfl⟩ := Option.map_eq_some_iff.mp hstep
    exact ⟨hc.1.step hdrive, htallied⟩
  obtain ⟨hdriven, htallied⟩ :=
    Machine.exec_invariant_of_step hkept ⟨hinit.driven, hinit.tallied⟩ hrun
  have hbudget := hdriven.budgeted.retried_le
  have hstarts : ∀ id, c.starts id ≤ (order c.drive.run.wf).count id *
      (1 + retryBudget c.drive.run.wf + c.wakes id) := by
    intro id
    calc c.starts id
        ≤ c.starts id + c.drive.due id := Nat.le_add_right _ _
      _ ≤ (order c.drive.run.wf).count id * (1 + c.drive.run.retried + c.wakes id) := htallied id
      _ ≤ (order c.drive.run.wf).count id * (1 + retryBudget c.drive.run.wf + c.wakes id) :=
        Nat.mul_le_mul_left _ (by omega)
  refine ⟨?_, drive_moves e hdriven.wellFormed hdriven.metered, ?_, ?_, hstarts, ?_⟩
  · have hflight := hdriven.metered.inFlight_le hdriven.wellFormed
    have hcount := hdriven.wellFormed.count
    rw [channelCapacity]
    omega
  · intro run hfirst hreenters
    exact drive_rests run (hfirst ▸ hdriven) hreenters
  · have hresets := hdriven.budgeted.resets
    omega
  · intro hnodup id
    calc c.starts id
        ≤ (order c.drive.run.wf).count id * (1 + retryBudget c.drive.run.wf + c.wakes id) := hstarts id
      _ ≤ 1 * (1 + retryBudget c.drive.run.wf + c.wakes id) :=
        Nat.mul_le_mul_right _ (nodup_iff_count_le_one.mp hnodup id)
      _ = 1 + retryBudget c.drive.run.wf + c.wakes id := Nat.one_mul _

/-! ## A flaky build

One step that may be retried once, so the bound on its starts is reached. -/

def flakyWorkflow : WorkflowConfig where
  id := "flaky"
  steps := [{ id := "build", onFail := some ⟨"build", 1⟩ }]

def flakyStart : DriveState := { run := initDAG "wf-1" flakyWorkflow {} [] fun _ => none }

/-- The build fails, is looped back to, and passes. -/
def flakyLaps : List Event :=
  List.replicate 4 (.sched 0) ++ runWorker 0 { output := "build failed" } ++
    List.replicate 7 (.sched 0) ++ runWorker 0 { success := true } ++ List.replicate 4 (.sched 0)

theorem flaky_laps_tallied :
    ∃ c, Machine.exec (Tally.step (plainEngine 1)) { drive := flakyStart } flakyLaps = some c ∧
      c.drive.phase = .ended .done ∧ c.starts "build" = 2 ∧ resetCount c.drive.history = 1 ∧
      c.starts "build" ≤ 1 + retryBudget flakyWorkflow + c.wakes "build" := by
  have hrun := Machine.exec_get (by decide +kernel : (Machine.exec (Tally.step (plainEngine 1))
    { drive := flakyStart } flakyLaps).isSome = true)
  obtain ⟨-, -, -, -, -, hbound⟩ := drive_terminates (plainEngine 1)
    (Initial.fresh "wf-1" flakyWorkflow {} [] _) hrun
  exact ⟨_, hrun, Phase.outcome?_eq_some (by decide +kernel), by decide +kernel, by decide +kernel,
    hbound (by decide +kernel) "build"⟩

end Apiary.Workflow
