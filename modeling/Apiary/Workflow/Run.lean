import Apiary.Config.Step
import Apiary.Core.Marking

/-!
# The in-memory state of one workflow instance

`DagRun` is the state the scheduler goroutine owns, with Go maps as functions.
The parts of the source's record that only index the workflow definition
(`byID`, `order`, `childByID`, `parentOfChild`, `splitTarget`) are computed from
it.  The expression language is a parameter of the engine.
-/

namespace Apiary.Workflow

open Config

/-- A decoded JSON value; a number keeps its text. -/
inductive Value where
  | null
  | bool (value : Bool)
  | number (text : String)
  | string (value : String)
  | array (items : List Value)
  | object (fields : List (String × Value))

abbrev Structured := List (String × Value)

inductive Status where
  | pending
  | running
  | passed
  | failed
  | skipped
  | condSkipped
  | waiting
  deriving DecidableEq, Repr

inductive Outcome where
  | done
  | failed
  | waiting
  | stopped
  deriving DecidableEq, Repr

structure StepState where
  state : Status
  exitCode : ℕ := 0
  output : String := ""
  deriving DecidableEq

structure MemoryStep where
  stepID : String
  writeFields : List String := []
  structured : Structured := []
  summary : String := ""

/-- What executing a step reports.  `pending` and `conflict` are set by wait_for
steps only; `stepRunID` names the persisted row, when there is one. -/
structure StepResult where
  success : Bool := false
  output : String := ""
  structuredOutput : Structured := []
  summary : String := ""
  pending : Bool := false
  conflict : Bool := false
  stepRunID : Option ℕ := none

structure SourceItem where
  id : String := ""
  sourceID : String := ""
  title : String := ""
  description : String := ""
  labels : List String := []
  type : String := ""
  priority : String := ""
  state : String := ""
  url : String := ""

structure EvalContext where
  cell : SourceItem
  memory : String → Option String
  steps : String → Option StepState
  event : String → Option String

/-- What the scheduler takes from the rest of the engine. -/
structure Engine where
  Expr : Type
  parseExpr : String → Except String Expr
  eval : Expr → EvalContext → Except String Bool
  memoryRefs : Expr → List String
  renderValue : Value → String
  concurrency : ℕ

def Engine.concurrencyLimit (e : Engine) : ℕ := if 0 < e.concurrency then e.concurrency else 1

/-- An engine in which every expression holds. -/
def plainEngine (concurrency : ℕ) : Engine where
  Expr := Unit
  parseExpr _ := .ok ()
  eval _ _ := .ok true
  memoryRefs _ := []
  renderValue _ := ""
  concurrency := concurrency

structure DagRun where
  instID : String
  wf : WorkflowConfig
  cell : SourceItem
  seed : List MemoryStep
  event : String → Option String
  state : String → Option Status
  activated : String → Bool
  retries : String → ℕ
  conflictRetries : String → ℕ
  stepStates : String → Option StepState
  contrib : String → Option MemoryStep
  feedback : String → List MemoryStep
  passedOrder : List String
  waitingStep : String
  parkedAt : ℕ
  waitingChild : String
  parallelDone : String → Option (String → Option StepResult)
  waitDeadline : Option ℕ
  stopped : Bool

/-! ## Indexes of the workflow definition -/

section Index

variable (wf : WorkflowConfig)

def order : List String := wf.steps.map StepConfig.id

def byID (id : String) : StepConfig := (findStep id wf.steps).getD default

/-- The children of parallel groups with the id of their group. -/
def groupChildren : List (StepConfig × String) :=
  (wf.steps.filter fun s => s.type = .parallel).flatMap fun s =>
    s.subSteps.map fun child => (child, s.id)

def childByID (id : String) : Option StepConfig := findStep id ((groupChildren wf).map Prod.fst)

/-- The group of a child; a later group overwrites an earlier one. -/
def parentOfChild (id : String) : Option String :=
  (((groupChildren wf).reverse).find? fun pair => pair.1.id = id).map Prod.snd

def splitTarget (id : String) : Bool :=
  wf.steps.any fun s => s.type = .split && s.branches.any fun b => b.goto ≠ "" && b.goto = id

/-- The steps that name `id` as a dependency of either kind. -/
def dependents (id : String) : List String :=
  (order wf).filter fun other => id ∈ (byID wf other).dependsOn || id ∈ (byID wf other).seqDependsOn

end Index

def initDAG (instID : String) (wf : WorkflowConfig) (cell : SourceItem)
    (seed : List MemoryStep) (event : String → Option String) : DagRun where
  instID := instID
  wf := wf
  cell := cell
  seed := seed
  event := event
  state id := if id ∈ order wf then some .pending else none
  activated id := decide (id ∈ order wf) && !splitTarget wf id
  retries _ := 0
  conflictRetries _ := 0
  stepStates _ := none
  contrib _ := none
  feedback _ := []
  passedOrder := []
  waitingStep := ""
  parkedAt := 0
  waitingChild := ""
  parallelDone _ := none
  waitDeadline := none
  stopped := false

end Apiary.Workflow
