import Apiary.Daemon.Instance
import Apiary.Workflow.ResumeChain

/-!
# Starting an instance

A start creates the row of its instance, or takes over one that was reserved, and then
persists a snapshot of the workflow.  A resume also selects the rows it reuses and copies
them.  Only some of the failures on the way close the row again, and the selection knows
the ids of steps, not those of what runs inside them.
-/

namespace Apiary.Workflow

open Config Daemon Machine List

/-- The calls on the store that fail; `copy n` is that of the `n`-th row carried over. -/
structure Faults where
  claim : Bool := false
  read : Bool := false
  create : Bool := false
  snapshot : Bool := false
  copy : ℕ → Bool := fun _ => false
  update : Bool := false

inductive StartError where
  | claim
  | read
  | reservationLost (state : InstanceState)
  | create
  | snapshot
  | stepNotFound (fromStep workflow : String)
  | copy
  deriving DecidableEq

/-- The row after a start, whether the start created it or took it over, and its error. -/
structure Left where
  row : Option InstanceState
  owned : Bool := true
  err : Option StartError := none

section Paths

variable (f : Faults) (settled : InstanceState)

/-- `settled` is what the drive and `settle` leave. -/
def runCreatedInstance : Left :=
  if f.snapshot then { row := some .running, err := some .snapshot } else { row := some settled }

def runInstance : Left :=
  if f.create then { row := none, owned := false, err := some .create }
  else runCreatedInstance f settled

def runReservedInstance (row : Option InstanceState) : Left :=
  if f.claim then { row := row, owned := false, err := some .claim }
  else if row = some .queued then runCreatedInstance f settled
  else if f.read then { row := row, owned := false, err := some .read }
  else
    match row with
    | some state => { row := row, owned := false, err := some (.reservationLost state) }
    | none => runInstance f settled

/-- The cleanup of a resume, whose own error is ignored. -/
def markFailed : InstanceState := if f.update then .running else .failed

/-- `seedResume` stops at the first copy that fails. -/
def copyFails (wf : WorkflowConfig) (selected : List StepRun) : Bool :=
  (range (selected.filter (restores wf)).length).any f.copy

def resumeInstance (wf : WorkflowConfig) (prior : List StepRun) (fromStep : String) : Left :=
  if f.create then { row := none, owned := false, err := some .create }
  else if f.snapshot then { row := some (markFailed f), err := some .snapshot }
  else
    match resumeCacheSelection wf prior fromStep with
    | none => { row := some .running, err := some (.stepNotFound fromStep wf.id) }
    | some selected =>
      if copyFails f wf selected then { row := some (markFailed f), err := some .copy }
      else { row := some settled }

end Paths

inductive Start where
  | run
  | reserved (row : Option InstanceState)
  | resume (wf : WorkflowConfig) (prior : List StepRun) (fromStep : String)

def Start.leaves (f : Faults) (settled : InstanceState) : Start → Left
  | .run => runInstance f settled
  | .reserved row => runReservedInstance f settled row
  | .resume wf prior fromStep => resumeInstance f settled wf prior fromStep

/-- An error leaves the row of the start closed. -/
def Left.Closed (l : Left) : Prop :=
  l.err.isSome → l.owned = true → ∃ state, l.row = some state ∧ state.isTerminal = true

/-- A start persists the snapshot of the row that it has; a resume starts at a declared
step, and its cleanup goes through when the snapshot or a copy fails. -/
def Start.Guarded (f : Faults) : Start → Prop
  | .run => f.create = false → f.snapshot = false
  | .reserved row => f.claim = false →
      row = some .queued ∨ row = none ∧ f.read = false ∧ f.create = false → f.snapshot = false
  | .resume wf prior fromStep => f.create = false →
      (f.snapshot = true → f.update = false) ∧ (f.snapshot = false →
        ∃ selected, resumeCacheSelection wf prior fromStep = some selected ∧
          (copyFails f wf selected = true → f.update = false))

theorem runCreatedInstance_closed {f : Faults} {settled : InstanceState} :
    (runCreatedInstance f settled).Closed ↔ f.snapshot = false := by
  rw [runCreatedInstance]
  cases f.snapshot <;> simp [Left.Closed, InstanceState.isTerminal]

theorem markFailed_terminal {f : Faults} : (markFailed f).isTerminal = true ↔ f.update = false := by
  rw [markFailed]
  cases f.update <;> simp [InstanceState.isTerminal]

/-- Exactly the guarded starts leave no row running behind an error. -/
theorem start_error_closes_row_iff (f : Faults) (settled : InstanceState) (start : Start) :
    (start.leaves f settled).Closed ↔ start.Guarded f := by
  have hrun : (runInstance f settled).Closed ↔ Start.run.Guarded f := by
    rw [runInstance, Start.Guarded]
    cases f.create
    · simpa using runCreatedInstance_closed
    · simp [Left.Closed]
  cases start with
  | run => exact hrun
  | reserved row =>
    rw [Start.leaves, runReservedInstance.eq_def, Start.Guarded]
    cases f.claim
    · by_cases hqueued : row = some .queued
      · simpa [hqueued] using runCreatedInstance_closed
      · cases row with
        | none =>
          cases f.read
          · simpa [Start.Guarded] using hrun
          · simp [Left.Closed]
        | some => cases f.read <;> simp_all [Left.Closed]
    · simp [Left.Closed]
  | resume wf prior fromStep =>
    rw [Start.leaves, resumeInstance, Start.Guarded]
    cases f.create
    · cases f.snapshot
      · cases resumeCacheSelection wf prior fromStep with
        | none => simp [Left.Closed, InstanceState.isTerminal]
        | some selected =>
          cases hcopy : copyFails f wf selected <;> simp [Left.Closed, markFailed_terminal, hcopy]
      · simp [Left.Closed, markFailed_terminal]
    · simp [Left.Closed]

/-- A snapshot that cannot be written leaves a run that never started running. -/
theorem run_snapshotFails_open :
    Start.run.leaves { snapshot := true } .done = ⟨some .running, true, some .snapshot⟩ ∧
      ¬ (Start.run.leaves { snapshot := true } .done).Closed := by
  refine ⟨rfl, fun hclosed => ?_⟩
  obtain ⟨state, hrow, hterminal⟩ := hclosed rfl rfl
  cases hrow
  cases hterminal

/-! ## Starting from a step -/

section FromStep

variable {wf : WorkflowConfig} {prior selected : List StepRun} {fromStep instID : String}
  {cell : SourceItem} {e : Engine}

/-- The drive that a resume continues. -/
def resumed (instID : String) (wf : WorkflowConfig) (cell : SourceItem)
    (selected : List StepRun) : DriveState :=
  seedResume (initDAG instID wf cell [] fun _ => none) selected

/-- The steps declared before `fromStep` whose done rows restore them. -/
def reused (wf : WorkflowConfig) (prior : List StepRun) (fromStep : String) : List String :=
  (doneIDs prior).filter fun id => declaredBefore wf fromStep id && restorable wf id

/-- A worker executes something that passed and belongs to a step declared before. -/
def DriveState.ReexecutesBefore (s : DriveState) (wf : WorkflowConfig) (prior : List StepRun)
    (fromStep : String) : Prop :=
  ∃ w ∈ s.workers, declaredBefore wf fromStep w.step.id = true ∧
    ∃ u ∈ w.units, u.step.id ∈ doneIDs prior

/-- What passed and belongs to a step declared before is that step, which its rows restore:
not a child of a group, an item of a for_each, or a split. -/
def RowsOfSteps (wf : WorkflowConfig) (prior : List StepRun) (fromStep : String) : Prop :=
  ∀ owner ∈ wf.steps, declaredBefore wf fromStep owner.id = true → ∀ unit, UnitOf owner unit →
    unit.id ∈ doneIDs prior → unit.id = owner.id ∧ restorable wf owner.id = true

theorem resumed_wf : (resumed instID wf cell selected).run.wf = wf :=
  (restoreCachedSteps_restores selected _).wf

theorem resumed_cached (hselected : resumeCacheSelection wf prior fromStep = some selected) :
    Cached (reused wf prior fromStep) (resumed instID wf cell selected) := by
  refine ⟨?_, by simp [resumed, seedResume], by simp [resumed, seedResume], trivial⟩
  intro id hid horder
  obtain ⟨hdone, hreused⟩ := mem_filter.mp hid
  obtain ⟨hbefore, hrestorable⟩ := Bool.and_eq_true_iff.mp hreused
  have hnamed : named wf fromStep id = false := by simp [named, hbefore]
  have hrow := mem_doneIDs_selected hselected (by rwa [resumed_wf] at horder) hnamed hdone
  exact .inl ((restored_state _ selected id).mpr (.inr ⟨hrow, hrestorable⟩))

/-- In every run of a resume from a step whose loop-backs leave the reused steps alone,
nothing that passed and belongs to a step declared before is executed again, as long as
only steps themselves passed there. -/
theorem passed_before_not_reexecuted
    (hselected : resumeCacheSelection wf prior fromStep = some selected)
    (hrows : RowsOfSteps wf prior fromStep) {es : List Event} {t : DriveState}
    (hguarded : Machine.Guarded (step e)
      (fun s ev => keepsCarried ⟨s, reused wf prior fromStep⟩ (.run ev) = true)
      (resumed instID wf cell selected) es)
    (hrun : exec (step e) (resumed instID wf cell selected) es = some t) :
    ¬ t.ReexecutesBefore wf prior fromStep := by
  have hinit : Initial (resumed instID wf cell selected) := .resumed instID wf cell selected
  have hkept : ∀ s ev t, (WellFormed s ∧ s.run.wf = wf ∧ Cached (reused wf prior fromStep) s) →
      keepsCarried ⟨s, reused wf prior fromStep⟩ (.run ev) = true → step e s ev = some t →
      WellFormed t ∧ t.run.wf = wf ∧ Cached (reused wf prior fromStep) t := by
    rintro s ev t ⟨hs, hwf, hc⟩ hguard hstep
    exact ⟨hs.step hstep, (step_wf hstep).trans hwf, hc.step hs hguard hstep⟩
  obtain ⟨ht, hwf, hcached⟩ := exec_invariant hkept
    ⟨hinit.started.wellFormed, resumed_wf, resumed_cached hselected⟩ hguarded hrun
  rintro ⟨w, hw, hbefore, u, hu, hdone⟩
  have hof := ht.workers w hw
  obtain ⟨hself, hrestorable⟩ := hrows w.step (hwf ▸ hof.declared) hbefore u.step (hof.units u hu) hdone
  refine hcached.workers w hw (mem_filter.mpr ⟨hself ▸ hdone, ?_⟩)
  rw [hbefore, hrestorable]
  rfl

end FromStep

/-- The plan passed, and the resume goes on with the implementation. -/
theorem deliver_fromCode_kept : ∃ t, exec (step (plainEngine 2)) (resumed "wf-2" deliverWorkflow {}
        [{ id := 0, stepID := "plan", state := .done }]) (replicate 4 (.sched 0)) = some t ∧
      (t.workers.map fun w => w.step.id) = ["code"] ∧
      ¬ t.ReexecutesBefore deliverWorkflow [{ id := 0, stepID := "plan", state := .done }] "code" := by
  refine ⟨_, exec_get (by decide), by decide, passed_before_not_reexecuted rfl ?_ (by decide) (exec_get _)⟩
  intro owner howner hbefore unit hunit _
  have hplan : owner = { id := "plan" } := by
    simp only [deliverWorkflow, mem_cons, not_mem_nil, or_false] at howner
    exact howner.resolve_right fun h => by simp [h, declaredBefore] at hbefore
  subst hplan
  obtain rfl : unit = { id := "plan" } := hunit
  exact ⟨rfl, by decide⟩

/-- A group of checks before the implementation. -/
def checkedWorkflow : WorkflowConfig where
  id := "checked"
  steps := [{ id := "checks", type := .parallel, subSteps := [{ id := "lint" }] },
    { id := "code", seqDependsOn := ["checks"] }]

/-- The check passed, its row is not selected, and the resume runs it again. -/
theorem checked_fromCode_reexecutes : ∃ selected t,
      resumeCacheSelection checkedWorkflow [{ id := 0, stepID := "lint", state := .done }] "code" =
        some selected ∧
      exec (step (plainEngine 2)) (resumed "wf-2" checkedWorkflow {} selected)
        (replicate 3 (.sched 0) ++ [.worker 0 (.start 0)]) = some t ∧
      t.rows.map (fun row => (row.stepID, row.state)) = [("lint", .running)] ∧
      t.ReexecutesBefore checkedWorkflow [{ id := 0, stepID := "lint", state := .done }] "code" := by
  refine ⟨[], _, rfl, exec_get (by decide), by decide, _, mem_cons_self, by decide, _,
    mem_cons_self, by decide⟩

end Apiary.Workflow
