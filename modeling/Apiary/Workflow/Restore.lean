import Apiary.Workflow.Drive

/-!
# Restoring a run from its step-run rows

Resuming an interrupted instance and rehydrating a parked one both rebuild the
in-memory run from the persisted rows.  `seen` in the source tracks the steps
already restored; on a run that starts with nothing passed these are the ones in
`passedOrder`.
-/

namespace Apiary.Workflow

open Config Function

/-- Memoizes a passed child of a parallel group under its group. -/
def restoreParallelChild (r : DagRun) (child : StepConfig) (sr : StepRun) : DagRun :=
  match parentOfChild r.wf child.id with
  | none => r
  | some parent =>
    { r with
      parallelDone := update r.parallelDone parent
        (some (update ((r.parallelDone parent).getD fun _ => none) child.id
          (some
            { success := true, output := sr.output, summary := sr.summary,
              structuredOutput := sr.structuredOutput }))) }

def restorePassed (r : DagRun) (step : StepConfig) (sr : StepRun) : DagRun :=
  { r.setState step.id .passed with
    stepStates := update r.stepStates step.id
      (some { state := .passed, output := sr.output })
    contrib := update r.contrib step.id
      (some
        { stepID := step.id, writeFields := step.memoryWrite,
          structured := sr.structuredOutput, summary := sr.summary })
    passedOrder := if step.id ∈ r.passedOrder then r.passedOrder else r.passedOrder ++ [step.id]
    activated := fun id =>
      r.activated id || step.onPass.any fun next => next.next ≠ "" && next.next = id }

/-- One row of `restoreCachedSteps`; rows that are not done and rows of splits
leave their step to run again. -/
def restoreRow (r : DagRun) (sr : StepRun) : DagRun :=
  if sr.state ≠ .done then r
  else
    match findStep sr.stepID r.wf.steps with
    | some step => if step.type = .split then r else restorePassed r step sr
    | none =>
      match childByID r.wf sr.stepID with
      | some child => restoreParallelChild r child sr
      | none => r

def restoreCachedSteps (r : DagRun) (priorSteps : List StepRun) : DagRun :=
  priorSteps.foldl restoreRow r

/-- Whether `restoreCachedSteps` reports a row back to its caller. -/
def restores (wf : WorkflowConfig) (sr : StepRun) : Bool :=
  sr.state = .done && (findStep sr.stepID wf.steps).any fun step => step.type ≠ .split

/-- Whether `id` was last declared before `fromStep` was. -/
def declaredBefore (wf : WorkflowConfig) (fromStep id : String) : Bool :=
  id ∈ order wf && id ≠ fromStep && id ∉ (order wf).reverse.takeWhile fun later => later ≠ fromStep

/-- The rows eligible for reuse: all of them, or those of the steps declared
before `fromStep`. -/
def resumeCacheSelection (wf : WorkflowConfig) (prior : List StepRun) (fromStep : String) :
    Option (List StepRun) :=
  if fromStep = "" then some prior
  else if fromStep ∈ order wf then
    some (prior.filter fun sr => declaredBefore wf fromStep sr.stepID)
  else none

/-- The display copy of a carried-over row on the descendant instance. -/
def cachedCopy (id : ℕ) (sr : StepRun) : StepRun :=
  { sr with id := id, state := .skipped, skippedCached := true }

/-- `seedResume` on a fresh run: the run it continues from and the rows it
writes. -/
def seedResume (r : DagRun) (selected : List StepRun) : DriveState :=
  let cached := selected.filter (restores r.wf)
  { run := restoreCachedSteps r selected
    rows := cached.mapIdx cachedCopy
    nextRow := cached.length }

def DagRun.runnable (r : DagRun) : List String := pickAllRunnable r.wf r.state r.activated

def DagRun.firstRunnableApproval (r : DagRun) : Option String :=
  r.runnable.find? fun id => (byID r.wf id).type = .approval

/-- The step a rehydrated wait is parked at, with the waiting child of a group. -/
def waitParkOf (wf : WorkflowConfig) (id : String) : Option (String × String) :=
  match (byID wf id).type with
  | .waitFor => some (id, "")
  | .parallel =>
    ((byID wf id).subSteps.find? fun child => child.type = .waitFor).map fun child =>
      (id, child.id)
  | _ => none

def DagRun.firstRunnableWait (r : DagRun) : Option (String × String) :=
  r.runnable.findSome? (waitParkOf r.wf)

/-- `RehydrateApproval`: park again at the first runnable approval step. -/
def rehydrateApproval (r : DagRun) (priorSteps : List StepRun) (parkedAt nextRow : ℕ) :
    Option DriveState :=
  let restored := restoreCachedSteps r priorSteps
  restored.firstRunnableApproval.map fun id =>
    { run := { restored.setState id .waiting with waitingStep := id, parkedAt := parkedAt }
      phase := .parked
      rows := priorSteps
      nextRow := nextRow }

/-- `RehydrateWait`: park again at the first runnable wait, with a fresh
deadline. -/
def rehydrateWait (r : DagRun) (priorSteps : List StepRun) (now nextRow : ℕ) : Option DriveState :=
  let restored := restoreCachedSteps r priorSteps
  restored.firstRunnableWait.map fun park =>
    let parked := { restored.setState park.1 .waiting with
      waitingStep := park.1, waitingChild := park.2 }
    { run := { parked with waitDeadline := waitDeadlineFrom now parked.waitStepConfig.1 }
      phase := .parked
      rows := priorSteps
      nextRow := nextRow }

/-- The states a drive starts from: a new instance, a resumed one, and a parked
one brought back after a restart. -/
inductive Initial : DriveState → Prop where
  | fresh (instID : String) (wf : WorkflowConfig) (cell : SourceItem)
      (seed : List MemoryStep) (event : String → Option String) :
      Initial { run := initDAG instID wf cell seed event }
  | resumed (instID : String) (wf : WorkflowConfig) (cell : SourceItem)
      (selected : List StepRun) :
      Initial (seedResume (initDAG instID wf cell [] fun _ => none) selected)
  | approval (instID : String) (wf : WorkflowConfig) (cell : SourceItem)
      (prior : List StepRun) (parkedAt nextRow : ℕ) (s : DriveState)
      (hpark : rehydrateApproval (initDAG instID wf cell [] fun _ => none) prior parkedAt nextRow =
        some s) : Initial s
  | wait (instID : String) (wf : WorkflowConfig) (cell : SourceItem)
      (prior : List StepRun) (now nextRow : ℕ) (s : DriveState)
      (hpark : rehydrateWait (initDAG instID wf cell [] fun _ => none) prior now nextRow =
        some s) : Initial s

end Apiary.Workflow
