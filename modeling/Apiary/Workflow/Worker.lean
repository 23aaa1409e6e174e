import Apiary.Workflow.Gates

/-!
# Worker goroutines and the rows they write

A dispatched step runs in a worker goroutine as one or more units: the step
itself, the children of a parallel group, or the items of a foreach step.  Agent
units and sub-workflow steps insert a step-run row when they start and update it
when they end.  What a unit's external work reports is arbitrary.
-/

namespace Apiary.Workflow

open Config

/-! ## Step-run rows -/

/-- The stored states, legacy names already mapped to these. -/
inductive RowState where
  | pending
  | running
  | blocked
  | done
  | failed
  | skipped
  | canceled
  deriving DecidableEq, Repr

structure StepRun where
  id : ℕ
  stepID : String
  state : RowState
  output : String := ""
  structuredOutput : Structured := []
  summary : String := ""
  skippedCached : Bool := false

def updateRow (id : ℕ) (f : StepRun → StepRun) (rows : List StepRun) : List StepRun :=
  rows.map fun row => if row.id = id then f row else row

/-- `markStepRunFailed`: a gate rejected a step after its row was written. -/
def markStepRunFailed (rows : List StepRun) (id : Option ℕ) (output : String) : List StepRun :=
  match id with
  | none => rows
  | some id => updateRow id (fun row => { row with state := .failed, output := output }) rows

/-! ## Units -/

inductive UnitPhase where
  | idle
  | spawned
  | running (row : ℕ)
  | finished (res : StepResult)

structure UnitRun where
  step : StepConfig
  phase : UnitPhase

def UnitRun.result? (u : UnitRun) : Option StepResult :=
  match u.phase with
  | .finished res => some res
  | _ => none

def UnitRun.isIdle (u : UnitRun) : Bool :=
  match u.phase with
  | .idle => true
  | _ => false

def UnitRun.isActive (u : UnitRun) : Bool :=
  match u.phase with
  | .spawned => true
  | .running _ => true
  | _ => false

def UnitRun.hasFailed (u : UnitRun) : Bool :=
  match u.phase with
  | .finished res => !res.success
  | _ => false

/-- A dispatched step with the snapshot taken on the scheduler goroutine.  A
foreach step whose items cannot be resolved has no units and `failed` set. -/
structure Worker where
  step : StepConfig
  memSnap : List MemoryStep
  units : List UnitRun
  failed : Option String := none

def defaultForeachMaxItems : ℕ := 50

def walkItems : List String → Value → Except String (List Value)
  | [], .array items => .ok items
  | [], _ => .error "items path does not resolve to an array"
  | field :: fields, .object entries =>
    match entries.lookup field with
    | some value => walkItems fields value
    | none => .error ("field " ++ quote field ++ " not found")
  | field :: _, _ => .error (quote field ++ " is not an object")

def resolveItemsFromContrib (path : String) (contrib : String → Option MemoryStep) :
    Except String (List Value) :=
  match (path.toList.splitOn '.').map String.ofList with
  | "steps" :: id :: "output" :: field :: fields =>
    match contrib id with
    | none => .error ("step " ++ quote id ++ " has no structured output to read items from")
    | some c =>
      if c.structured = [] then
        .error ("step " ++ quote id ++ " has no structured output to read items from")
      else walkItems (field :: fields) (.object c.structured)
  | _ => .error ("invalid items path " ++ quote path ++ " (want steps.<id>.output.<field>)")

/-- The step a foreach item runs: the body under an indexed id. -/
def itemStep (step body : StepConfig) (index : ℕ) : StepConfig :=
  { body with
    id := step.id ++ "[" ++ toString index ++ "]"
    type := .agent
    dependsOn := [] }

def itemLimit (step : StepConfig) : ℕ :=
  if step.maxItems = 0 then defaultForeachMaxItems else step.maxItems

def foreachItems (step : StepConfig) (contrib : String → Option MemoryStep) :
    Except String (List StepConfig) :=
  match resolveItemsFromContrib step.items contrib with
  | .error err => .error err
  | .ok items =>
    if itemLimit step < items.length then
      .error ("foreach: " ++ toString items.length ++ " items exceeds max_items " ++
        toString (itemLimit step))
    else
      match step.step with
      | none => .error "foreach: missing inner step"
      | some body => .ok ((List.range items.length).map (itemStep step body))

/-- The worker `dispatch` launches.  Children of a group that finished on an
earlier pass are replayed, not run again. -/
def launch (r : DagRun) (step : StepConfig) : Worker :=
  match step.type with
  | .parallel =>
    { step := step
      memSnap := r.memSteps
      units := step.subSteps.map fun child =>
        match (r.parallelDone step.id).bind fun done => done child.id with
        | some res => { step := child, phase := .finished res }
        | none => { step := child, phase := .spawned } }
  | .foreach =>
    match foreachItems step r.contrib with
    | .error err => { step := step, memSnap := r.memSteps, units := [], failed := some err }
    | .ok items =>
      { step := step
        memSnap := r.memSteps
        units := items.map fun item => { step := item, phase := .idle } }
  | _ => { step := step, memSnap := r.memSteps, units := [{ step := step, phase := .spawned }] }

/-! ## Results -/

/-- What a parallel step hands back: the child it waits for and the results of
the children that finished. -/
structure ParallelState where
  waitingChild : String := ""
  done : String → Option StepResult := fun _ => none

structure WorkerResult where
  step : StepConfig
  res : StepResult
  parallelContribs : List MemoryStep := []
  parallel : ParallelState := {}
  foreachExitCode : ℕ := 0

abbrev ChildResult := StepConfig × StepResult

/-- Whether the children that finished already settle the join. -/
def joinDecided (join : String) (results : List ChildResult) : Bool :=
  if join = "any" then results.any fun cr => cr.2.success
  else if join = "" ∨ join = "all" then
    results.any fun cr => !cr.2.pending && !cr.2.success
  else false

def passFail (success : Bool) : Status := if success then .passed else .failed

def applyJoinPolicy (e : Engine) (join : String) (results : List ChildResult)
    (cell : SourceItem) (memSnap : List MemoryStep) : Except String Bool :=
  if join = "any" then .ok (results.any fun cr => cr.2.success)
  else if join = "" ∨ join = "all" then .ok (results.all fun cr => cr.2.success)
  else
    evalExpr e join
      { cell := cell
        memory := memoryValuesFrom e memSnap
        steps := fun id => (results.reverse.find? fun cr => cr.1.id = id).map fun cr =>
          { state := passFail cr.2.success, output := cr.2.output }
        event := fun _ => none }

def parallelState (results : List ChildResult) : ParallelState where
  waitingChild := ((results.reverse.find? fun cr => cr.2.pending).map fun cr => cr.1.id).getD ""
  done id := (results.reverse.find? fun cr => !cr.2.pending && cr.1.id = id).map Prod.snd

def childContribs (results : List ChildResult) : List MemoryStep :=
  (results.filter fun cr => cr.2.success).map fun cr =>
    { stepID := cr.1.id, writeFields := cr.1.memoryWrite,
      structured := cr.2.structuredOutput, summary := cr.2.summary }

/-- The tail of `runParallelStep`, once every child has reported. -/
def joinParallel (e : Engine) (cell : SourceItem) (w : Worker) (results : List ChildResult) :
    WorkerResult :=
  if results = [] then
    { step := w.step, res := { success := true, summary := "parallel: no children" } }
  else
    let state := parallelState results
    if state.waitingChild ≠ "" && !joinDecided w.step.join results then
      { step := w.step, res := { pending := true }, parallel := state }
    else
      match applyJoinPolicy e w.step.join results cell w.memSnap with
      | .error err =>
        { step := w.step
          res := { output := "join eval error " ++ quote w.step.join ++ ": " ++ err }
          parallel := state }
      | .ok true =>
        { step := w.step
          res := { success := true, summary := "parallel: joined" }
          parallelContribs := childContribs results
          parallel := state }
      | .ok false => { step := w.step, res := {}, parallel := state }

def foreachStepResult (step : StepConfig) (results : List StepResult) : WorkerResult :=
  let passed := (results.filter fun res => res.success).length
  let failed := (results.filter fun res => !res.success).length
  { step := step
    res :=
      { success := failed == 0
        output := "foreach: " ++ toString passed ++ " passed, " ++ toString failed ++ " failed"
        summary := if failed = 0 then
            step.id ++ ": processed " ++ toString passed ++ " item(s)"
          else "" }
    foreachExitCode := failed }

/-! ## Steps of a worker -/

/-- What a worker goroutine can do next: spawn the next foreach item, start a
unit, finish one with the given external result, or send its own result. -/
inductive WorkerAct where
  | spawn (index : ℕ)
  | start (index : ℕ)
  | finish (index : ℕ) (res : StepResult)
  | deliver

def Worker.setUnit (w : Worker) (index : ℕ) (phase : UnitPhase) : Worker :=
  { w with units := w.units.modify index fun u => { u with phase := phase } }

/-- Foreach items are spawned in order: one at a time, or up to the step's own
concurrency; none after a failure under `fail_fast`. -/
def Worker.maySpawn (w : Worker) (index : ℕ) : Bool :=
  (w.units.take index).all (fun u => !u.isIdle) &&
    !(w.step.failFast && w.units.any UnitRun.hasFailed) &&
    decide ((w.units.filter UnitRun.isActive).length < max 1 w.step.concurrency)

/-- Whether a unit has a step-run row: agent steps, agent children, foreach
items, and sub-workflow steps. -/
def Worker.writesRow (w : Worker) (u : UnitRun) : Bool :=
  u.step.type = .agent || (u.step.type = .workflow && w.step.type = .workflow)

def Worker.isGroup (w : Worker) : Bool := w.step.type = .parallel || w.step.type = .foreach

/-- A group child of a kind that groups do not support. -/
def Worker.unsupported (w : Worker) (u : UnitRun) : Bool :=
  w.step.type = .parallel && u.step.type ≠ .agent && u.step.type ≠ .waitFor

/-- The result of a unit as the engine records it.  Only wait_for steps report
`pending` or `conflict`, and a sub-workflow result does not carry its row. -/
def Worker.unitResult (w : Worker) (u : UnitRun) (row : ℕ) (res : StepResult) : StepResult :=
  if w.writesRow u then
    { res with
      pending := false
      conflict := false
      stepRunID := if u.step.type = .workflow then none else some row }
  else { res with stepRunID := none }

/-- The update of a unit's row when it ends. -/
def finishRow (res : StepResult) (row : StepRun) : StepRun :=
  { row with
    state := if res.success then .done else .failed
    output := res.output
    structuredOutput := res.structuredOutput
    summary := res.summary }

/-- A worker may report once nothing is running and no item is left that it would
still spawn. -/
def Worker.mayDeliver (w : Worker) : Bool :=
  w.units.all (fun u => !u.isActive) &&
    (w.units.all (fun u => !u.isIdle) || (w.step.failFast && w.units.any UnitRun.hasFailed))

def Worker.result (e : Engine) (cell : SourceItem) (w : Worker) : WorkerResult :=
  match w.step.type with
  | .parallel =>
    joinParallel e cell w (w.units.filterMap fun u => u.result?.map fun res => (u.step, res))
  | .foreach =>
    match w.failed with
    | some err => { step := w.step, res := { output := err } }
    | none => foreachStepResult w.step (w.units.filterMap UnitRun.result?)
  | _ => { step := w.step, res := (w.units.findSome? UnitRun.result?).getD {} }

end Apiary.Workflow
