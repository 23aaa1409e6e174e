import Apiary.Config.Step

/-!
# Authored workflows

A step as it is written, with the fields that lowering reads or sets.  The same
record holds a step before and after the pass.  What lowering copies without
looking at it is kept together in `StepDetails`.
-/

namespace Apiary.Config

/-- `on_reject`: where a rejected step starts again, and how often. -/
structure OnRejectConfig where
  restartFrom : String
  max : ℕ := 0
  deriving DecidableEq

/-- The fields of a step that lowering carries along. -/
structure StepDetails where
  agent : String := ""
  onMissingOutput : OnMissingOutput := .unset
  onPass : Option StepNext := none
  onConflict : Option StepOutcome := none
  env : List (String × String) := []
  actionClass : String := ""
  multi : Bool := false
  approvers : List String := []
  requiredApprovals : ℕ := 0
  timeout : ℕ := 0
  waitFor : Option WaitForConfig := none
  workflow : String := ""
  deriving DecidableEq

structure StepFields where
  id : String
  name : String := ""
  type : StepType := .agent
  dependsOn : List String := []
  seqDependsOn : List String := []
  condition : String := ""
  failWhen : String := ""
  outputSchema : Option (List String) := none
  memoryWrite : List String := []
  onFail : Option StepOutcome := none
  branches : List SplitBranch := []
  items : String := ""
  asName : String := ""
  concurrency : ℕ := 0
  maxItems : ℕ := 0
  failFast : Bool := false
  join : String := ""
  details : StepDetails := {}
  ifExpr : String := ""
  rejectWhen : String := ""
  onReject : Option OnRejectConfig := none
  forEachExpr : String := ""
  max : ℕ := 0
  output : Option (List String) := none
  deriving DecidableEq

/-- `subSteps` are the steps of a group, the children of a lowered parallel node or the
body of a `for_each`, `parallelSteps` the children of an authored parallel step, and
`step` is the body of a lowered foreach node. -/
structure AuthoredStep extends StepFields where
  subSteps : List AuthoredStep := []
  parallelSteps : List AuthoredStep := []
  step : Option AuthoredStep := none

/-- Only lowering gives a step one of these types, or an author who writes the lowered
form. -/
def AuthoredStep.isTyped (s : AuthoredStep) : Bool := s.type = .parallel || s.type = .foreach

/-- The step has a field that lowering must remove. -/
def AuthoredStep.isV2Step (s : AuthoredStep) : Bool :=
  s.type ≠ .parallel &&
    (s.ifExpr ≠ "" || s.rejectWhen ≠ "" || s.onReject.isSome || !s.subSteps.isEmpty ||
      !s.parallelSteps.isEmpty || s.forEachExpr ≠ "" || s.output.isSome)

mutual

def anyV2Step : AuthoredStep → Bool
  | ⟨fields, subSteps, parallelSteps, step⟩ =>
    AuthoredStep.isV2Step ⟨fields, subSteps, parallelSteps, step⟩ ||
      (anyV2Steps subSteps || anyV2Steps parallelSteps)

def anyV2Steps : List AuthoredStep → Bool
  | [] => false
  | s :: steps => anyV2Step s || anyV2Steps steps

end

theorem anyV2Step_eq (s : AuthoredStep) :
    anyV2Step s = (s.isV2Step || (anyV2Steps s.subSteps || anyV2Steps s.parallelSteps)) := by
  cases s
  rfl

mutual

/-- The steps that `buildStepIndex` visits, in its order. -/
def indexStep : AuthoredStep → List AuthoredStep
  | ⟨fields, subSteps, parallelSteps, step⟩ =>
    ⟨fields, subSteps, parallelSteps, step⟩ :: (indexSteps subSteps ++ indexSteps parallelSteps)

def indexSteps : List AuthoredStep → List AuthoredStep
  | [] => []
  | s :: steps => indexStep s ++ indexSteps steps

end

/-! ## Sequencing -/

/-- The position a map from ids to positions holds; an unknown id has the zero value. -/
def lastIndexOf (ids : List String) (id : String) : ℕ :=
  ((ids.zipIdx.reverse.find? fun entry => entry.1 = id).map Prod.snd).getD 0

/-- The targets of splits that are declared after their split, with the split. -/
def splitTargets (steps : List AuthoredStep) : List (String × String) :=
  steps.zipIdx.flatMap fun (s, i) =>
    if s.type = .split then
      (s.branches.filter fun b =>
        b.goto ≠ "" && i < lastIndexOf (steps.map fun s => s.id) b.goto).map fun b => (b.goto, s.id)
    else []

/-- The first split that names a target. -/
def splitFor (steps : List AuthoredStep) (target : String) : Option String :=
  (splitTargets steps).lookup target

/-- The edge a step without edges gets after the steps before it. -/
def sequenceEdge (split : Option String) (prevID : String) : List String :=
  match split with
  | some split => [split]
  | none => if prevID = "" then [] else [prevID]

def sequenceFrom (splitOf : String → Option String) : String → List AuthoredStep → List AuthoredStep
  | _, [] => []
  | prevID, s :: steps =>
    (if s.dependsOn = [] && s.seqDependsOn = [] then
        { s with seqDependsOn := sequenceEdge (splitOf s.id) prevID }
      else s) ::
      sequenceFrom splitOf (if s.id = "" then prevID else s.id) steps

/-- Each step depends on the one before it, and a target on its split. -/
def sequenceSteps (steps : List AuthoredStep) : List AuthoredStep :=
  sequenceFrom (splitFor steps) "" steps

end Apiary.Config
