import Apiary.Workflow.Worker
import Apiary.Core.Machine

/-!
# The scheduler loop

`driveDAG` as an event machine.  The scheduler goroutine moves through the
phases of its loop body; worker goroutines, the context and a concurrent stop
move between any two of its steps.  A parked run keeps its `DagRun`, and waking
it or resolving its approval enters the loop again.

Two fields record what the program itself does not keep.  `lost` lists the
worker results and requested loop-backs that the loop threw away, and `history`
lists starts (of steps, and of the units of their workers), approvals and loop
resets, newest first.
-/

namespace Apiary.Workflow

open Config Function

inductive Phase where
  | top
  | dispatch (ids : List String)
  | check
  | recv
  | drain (parking : WorkerResult)
  | parked
  | ended (outcome : Outcome)

inductive Lost where
  | result (wr : WorkerResult)
  | loopBack (target : String)

inductive Mark where
  | started (unit : StepConfig)
  | approved (id : String)
  | reset (ids : List String)

structure DriveState where
  run : DagRun
  phase : Phase := .top
  inFlight : ℕ := 0
  termFail : Bool := false
  loopTarget : String := ""
  ctxErr : Option String := none
  workers : List Worker := []
  resultCh : List WorkerResult := []
  rows : List StepRun := []
  nextRow : ℕ := 0
  lost : List Lost := []
  history : List Mark := []

def DagRun.setState (r : DagRun) (id : String) (status : Status) : DagRun :=
  { r with state := update r.state id (some status) }

/-! ## Dispatch -/

/-- Marks a step running and puts a result on the channel without a worker. -/
def DriveState.push (s : DriveState) (step : StepConfig) (id : String) (res : StepResult) :
    DriveState :=
  { s with
    run := s.run.setState id .running
    inFlight := s.inFlight + 1
    resultCh := s.resultCh ++ [{ step := step, res := res }] }

/-- Marks a step running and starts its worker on a snapshot of the run. -/
def DriveState.spawn (s : DriveState) (step : StepConfig) (id : String) : DriveState :=
  { s with
    run := s.run.setState id .running
    inFlight := s.inFlight + 1
    workers := s.workers ++ [launch s.run step] }

/-- Records that a step was started. -/
def DriveState.began (s : DriveState) (step : StepConfig) : DriveState :=
  { s with history := .started step :: s.history }

def conditionHolds (e : Engine) (r : DagRun) (step : StepConfig) : Except String Bool :=
  if step.condition = "" then .ok true else evalExpr e step.condition (r.evalContext e)

/-- One iteration of `dispatch`; the flag stops the iteration, which happens when
the concurrency limit is reached. -/
def dispatchStep (e : Engine) (s : DriveState) (id : String) : DriveState × Bool :=
  let step := byID s.run.wf id
  match conditionHolds e s.run step with
  | .error err =>
    (s.push step id
      { output := "condition eval error " ++ quote step.condition ++ ": " ++ err }, false)
  | .ok false => ({ s with run := s.run.markCondSkipped id }, false)
  | .ok true =>
    match step.type with
    | .split =>
      match runSplitStep e s.run step with
      | .error err =>
        (s.push step id { output := "split condition eval error: " ++ err }, false)
      | .ok r => ({ s.began step with run := r }, false)
    | .approval => ((s.began step).push step id { success := true }, false)
    | _ =>
      if e.concurrencyLimit ≤ s.inFlight then (s, true)
      else ((s.began step).spawn step id, false)

/-! ## Parks -/

def DagRun.enterApproval (r : DagRun) (now : ℕ) (step : StepConfig) : DagRun :=
  { r.setState step.id .waiting with waitingStep := step.id, parkedAt := now }

/-- The step whose wait_for settings govern the current park, if there is one. -/
def DagRun.waitStepConfig (r : DagRun) : StepConfig × Bool :=
  if r.waitingStep = "" then (default, false)
  else if r.waitingChild ≠ "" then
    match childByID r.wf r.waitingChild with
    | some child => (child, true)
    | none => (default, false)
  else
    let step := byID r.wf r.waitingStep
    (step, step.type = .waitFor)

/-- The deadline a wait park sets when none is set yet. -/
def waitDeadlineFrom (now : ℕ) (step : StepConfig) : Option ℕ :=
  match step.waitFor with
  | none => none
  | some wait => if 0 < wait.parsedMaxDuration then some (now + wait.parsedMaxDuration) else none

def DagRun.enterWait (r : DagRun) (now : ℕ) (step : StepConfig) : DagRun :=
  let parked := { r.setState step.id .waiting with waitingStep := step.id }
  { parked with
    waitDeadline := match parked.waitDeadline with
      | some deadline => some deadline
      | none => waitDeadlineFrom now parked.waitStepConfig.1 }

/-- Whether a received result suspends the run instead of being applied. -/
def parks (wr : WorkerResult) : Bool :=
  wr.step.type = .approval ||
    ((wr.step.type = .parallel || wr.step.type = .waitFor) && wr.res.pending)

def DagRun.enterPark (r : DagRun) (now : ℕ) (wr : WorkerResult) : DagRun :=
  match wr.step.type with
  | .approval => r.enterApproval now wr.step
  | .parallel =>
    { r with
      parallelDone := update r.parallelDone wr.step.id (some wr.parallel.done)
      waitingChild := wr.parallel.waitingChild }.enterWait now wr.step
  | _ => r.enterWait now wr.step

/-- The loop returns: its local flags are gone, and with them a loop-back that
was still to be carried out. -/
def DriveState.park (s : DriveState) (now : ℕ) (wr : WorkerResult) : DriveState :=
  { s with
    run := s.run.enterPark now wr
    phase := .parked
    termFail := false
    loopTarget := ""
    lost := if s.loopTarget = "" then s.lost else .loopBack s.loopTarget :: s.lost }

/-! ## Applying a result -/

/-- A canceled context fails the step whatever its worker reported. -/
def canceledResult (ctxErr : Option String) (res : StepResult) : StepResult :=
  match ctxErr with
  | none => res
  | some err => { res with success := false, output := "workflow canceled: " ++ err }

/-- A terminal result of a wait closes its waiting window, and that of a parked
group drops the results it kept. -/
def DagRun.closeWindow (r : DagRun) (step : StepConfig) : DagRun :=
  match step.type with
  | .parallel =>
    if (r.parallelDone step.id).isSome then
      { r with
        waitDeadline := none
        parallelDone := update r.parallelDone step.id none
        waitingChild := "" }
    else { r with waitingChild := "" }
  | .waitFor => { r with waitDeadline := none }
  | _ => r

/-- The checks a result goes through before it counts. -/
def gateResult (e : Engine) (r : DagRun) (wr : WorkerResult) (res : StepResult) : Gated :=
  let missing := applyMissingOutput wr.step res
  if missing.1.success && wr.step.failWhen ≠ "" then
    applyFailWhen e r wr.step missing.1 wr.parallelContribs
  else missing

def DagRun.recordState (r : DagRun) (wr : WorkerResult) (res : StepResult) : DagRun :=
  { r with
    stepStates := update r.stepStates wr.step.id
      (some
        { state := passFail res.success
          output := res.output
          exitCode := if wr.step.type = .foreach then wr.foreachExitCode else 0 }) }

def DagRun.mergeContribs (r : DagRun) (wr : WorkerResult) (res : StepResult) :
    String → Option MemoryStep :=
  if wr.step.type = .parallel then
    wr.parallelContribs.foldl (fun contrib c => update contrib c.stepID (some c)) r.contrib
  else
    update r.contrib wr.step.id
      (some
        { stepID := wr.step.id, writeFields := wr.step.memoryWrite,
          structured := res.structuredOutput, summary := res.summary })

def DagRun.passStep (r : DagRun) (wr : WorkerResult) (res : StepResult) : DagRun :=
  { r.setState wr.step.id .passed with
    feedback := update r.feedback wr.step.id []
    contrib := r.mergeContribs wr res
    passedOrder := r.passedOrder ++ [wr.step.id]
    activated := fun id =>
      r.activated id || wr.step.onPass.any fun next => next.next ≠ "" && next.next = id }

/-- The target of a loop-back edge with budget left. -/
def loopEdge (edge : Option StepOutcome) (used : ℕ) : Option String :=
  match edge with
  | none => none
  | some o => if o.goto ≠ "" && used < o.maxRetries then some o.goto else none

def governs (edge : Option StepOutcome) : Bool := edge.any fun o => o.goto ≠ ""

/-- Where a failure goes: a conflict with its own edge uses only that edge, any
other failure uses `on_fail`; nothing loops while a loop-back or a terminal
failure is already being drained. -/
def failureTarget (s : DriveState) (step : StepConfig) (res : StepResult) : Option String :=
  if s.termFail || s.loopTarget ≠ "" then none
  else if res.conflict && governs step.onConflict then
    loopEdge step.onConflict (s.run.conflictRetries step.id)
  else loopEdge step.onFail (s.run.retries step.id)

def DagRun.retryStep (r : DagRun) (wr : WorkerResult) (res : StepResult) : DagRun :=
  if res.conflict && governs wr.step.onConflict then
    { r.setState wr.step.id .pending with
      conflictRetries := update r.conflictRetries wr.step.id
        (r.conflictRetries wr.step.id + 1) }
  else
    { r.setState wr.step.id .pending with
      retries := update r.retries wr.step.id (r.retries wr.step.id + 1)
      feedback := update r.feedback wr.step.id
        (failedContribs wr.step res wr.parallelContribs) }

def DriveState.failStep (s : DriveState) (wr : WorkerResult) (res : StepResult) : DriveState :=
  match failureTarget s wr.step res with
  | some target => { s with run := s.run.retryStep wr res, loopTarget := target }
  | none => { s with run := s.run.setState wr.step.id .failed, termFail := true, loopTarget := "" }

def DriveState.applyResult (e : Engine) (s : DriveState) (wr : WorkerResult) : DriveState :=
  let closed := s.run.closeWindow wr.step
  let gated := gateResult e closed wr (canceledResult s.ctxErr wr.res)
  let recorded := { s with
    phase := .top
    rows := if gated.2 then markStepRunFailed s.rows gated.1.stepRunID gated.1.output else s.rows
    run := closed.recordState wr gated.1 }
  if gated.1.success then { recorded with run := recorded.run.passStep wr gated.1 }
  else recorded.failStep wr gated.1

/-- A stopped run only drains; a parking result makes the loop drain and return. -/
def DriveState.receive (e : Engine) (s : DriveState) (wr : WorkerResult) : DriveState :=
  if s.run.stopped then { s with phase := .top, lost := .result wr :: s.lost }
  else if parks wr then { s with phase := .drain wr }
  else s.applyResult e wr

/-! ## The machine -/

/-- The outcome once the graph is quiescent. -/
def finalOutcome (r : DagRun) : Outcome :=
  if (order r.wf).any fun id => r.state id = some .failed then .failed
  else if strandedSteps r ≠ [] then .failed
  else .done

/-- The loop body after dispatch, with nothing in flight. -/
def DriveState.quiesce (s : DriveState) : DriveState :=
  if s.run.stopped then { s with phase := .ended .stopped }
  else if s.termFail then { s with phase := .ended .failed }
  else if s.loopTarget ≠ "" then
    { s with
      run := s.run.resetLoop s.loopTarget
      history := .reset (resetSet s.run.wf s.loopTarget) :: s.history
      loopTarget := ""
      phase := .top }
  else
    let skipped := skipUnreachable s.run
    if skipped.2 then { s with run := skipped.1, phase := .top }
    else if pickAllRunnable s.run.wf s.run.state s.run.activated ≠ [] then
      { s with phase := .top }
    else { s with phase := .ended (finalOutcome s.run) }

/-- The next action of the scheduler goroutine; `none` while it has to wait. -/
def schedStep (e : Engine) (now : ℕ) (s : DriveState) : Option DriveState :=
  match s.phase with
  | .top =>
    if !s.termFail && s.loopTarget = "" && !s.run.stopped then
      some { s with
        phase := .dispatch (pickAllRunnable s.run.wf s.run.state s.run.activated) }
    else some { s with phase := .check }
  | .dispatch [] => some { s with phase := .check }
  | .dispatch (id :: ids) =>
    let out := dispatchStep e s id
    some { out.1 with phase := if out.2 then .check else .dispatch ids }
  | .check => if s.inFlight = 0 then some s.quiesce else some { s with phase := .recv }
  | .recv =>
    match s.resultCh with
    | [] => none
    | wr :: rest =>
      some ({ s with resultCh := rest, inFlight := s.inFlight - 1 }.receive e wr)
  | .drain wr =>
    if s.inFlight = 0 then some (s.park now wr)
    else
      match s.resultCh with
      | [] => none
      | dropped :: rest =>
        some { s with
          resultCh := rest
          inFlight := s.inFlight - 1
          lost := .result dropped :: s.lost }
  | .parked => none
  | .ended _ => none

/-- Starting a unit inserts its row, unless the context is already canceled.  A
group child of an unsupported kind fails at once. -/
def DriveState.startUnit (s : DriveState) (w : Worker) (u : UnitRun) : DriveState × UnitPhase :=
  if w.unsupported u then
    (s, .finished { output := "step type is not supported inside a parallel group" })
  else
    ({ s with
       nextRow := s.nextRow + 1
       rows := if w.writesRow u && s.ctxErr.isNone then
           s.rows ++ [{ id := s.nextRow, stepID := u.step.id, state := .running }]
         else s.rows
       history := .started u.step :: s.history },
     .running s.nextRow)

/-- Ending a unit updates its row.  An agent's row is written under the run's
context, that of a sub-workflow step is not.  Units of a group are checked for
missing output here, since they never reach the scheduler. -/
def DriveState.finishUnit (s : DriveState) (w : Worker) (u : UnitRun) (row : ℕ)
    (res : StepResult) : DriveState × UnitPhase :=
  let own := w.unitResult u row res
  let persists := w.writesRow u && (s.ctxErr.isNone || u.step.type = .workflow)
  let rows := if persists then updateRow row (finishRow own) s.rows else s.rows
  if w.isGroup then
    let gated := applyMissingOutput u.step own
    ({ s with
       rows := if gated.2 && s.ctxErr.isNone then
           markStepRunFailed rows gated.1.stepRunID gated.1.output
         else rows },
     .finished gated.1)
  else ({ s with rows := rows }, .finished own)

def DriveState.setUnit (s : DriveState) (index : ℕ) (w : Worker) (unit : ℕ)
    (phase : UnitPhase) : DriveState :=
  { s with workers := s.workers.set index (w.setUnit unit phase) }

def workerStep (e : Engine) (s : DriveState) (index : ℕ) (act : WorkerAct) : Option DriveState :=
  match s.workers[index]? with
  | none => none
  | some w =>
    match act with
    | .spawn unit =>
      match w.units[unit]? with
      | some { phase := .idle, .. } =>
        if w.maySpawn unit then some (s.setUnit index w unit .spawned) else none
      | _ => none
    | .start unit =>
      match w.units[unit]? with
      | some { phase := .spawned, step := step } =>
        let out := s.startUnit w { phase := .spawned, step := step }
        some (out.1.setUnit index w unit out.2)
      | _ => none
    | .finish unit res =>
      match w.units[unit]? with
      | some { phase := .running row, step := step } =>
        let out := s.finishUnit w { phase := .running row, step := step } row res
        some (out.1.setUnit index w unit out.2)
      | _ => none
    | .deliver =>
      if w.mayDeliver then
        some { s with
          workers := s.workers.eraseIdx index
          resultCh := s.resultCh ++ [w.result e s.run.cell] }
      else none

/-- The memory an approval response leaves under its step. -/
structure ApprovalMemory where
  writeFields : List String := []
  structured : Structured := []
  feedback : String := ""

/-- `ResolveApprovalResponse` on a claimed run: a resume marks the waiting step
passed, an abort marks it failed, whatever kind of step it is. -/
def DagRun.resolveApproval (r : DagRun) (approve : Bool) (memory : ApprovalMemory) : DagRun :=
  let resolved := r.setState r.waitingStep (if approve then .passed else .failed)
  { resolved with
    contrib := update r.contrib r.waitingStep
      (some
        { stepID := r.waitingStep, writeFields := memory.writeFields,
          structured := memory.structured, summary := memory.feedback })
    stepStates := if approve then
        update r.stepStates r.waitingStep (some { state := .passed })
      else r.stepStates
    waitingStep := "" }

/-- `WakeWait` on a claimed run: the waiting step is dispatched again. -/
def DagRun.rearm (r : DagRun) : DagRun :=
  { r.setState r.waitingStep .pending with waitingStep := "", waitingChild := "" }

inductive Event where
  | sched (now : ℕ)
  | worker (index : ℕ) (act : WorkerAct)
  | cancel (err : String)
  | stop
  | resolve (approve : Bool) (memory : ApprovalMemory)
  | wake

/-- A worker runs its only unit to the end and reports. -/
def runWorker (index : ℕ) (res : StepResult) : List Event :=
  [.worker index (.start 0), .worker index (.finish 0 res), .worker index .deliver]

def Phase.driving : Phase → Bool
  | .parked => false
  | .ended _ => false
  | _ => true

def Phase.outcome? : Phase → Option Outcome
  | .ended outcome => some outcome
  | _ => none

theorem Phase.outcome?_eq_some {phase : Phase} {outcome : Outcome}
    (houtcome : phase.outcome? = some outcome) : phase = .ended outcome := by
  cases phase with
  | ended =>
    rw [Phase.outcome?, Option.some.injEq] at houtcome
    rw [houtcome]
  | _ => cases houtcome

def step (e : Engine) (s : DriveState) : Event → Option DriveState
  | .sched now => schedStep e now s
  | .worker index act => workerStep e s index act
  | .cancel err => if s.phase.driving then some { s with ctxErr := some err } else none
  | .stop =>
    if s.phase.driving then some { s with run := { s.run with stopped := true } } else none
  | .resolve approve memory =>
    match s.phase with
    | .parked =>
      some { s with
        run := s.run.resolveApproval approve memory
        phase := .top
        ctxErr := none
        history := if approve then .approved s.run.waitingStep :: s.history else s.history }
    | _ => none
  | .wake =>
    match s.phase with
    | .parked => some { s with run := s.run.rearm, phase := .top, ctxErr := none }
    | _ => none

end Apiary.Workflow
