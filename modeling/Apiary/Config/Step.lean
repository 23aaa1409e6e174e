import Mathlib.Algebra.GroupWithZero.Nat
import Mathlib.Data.List.Nodup

/-!
# Workflow configuration

The step records the scheduler reads, after authoring sugar has been lowered.
An empty string is an absent value, as in the source; durations are the parsed
ones, with `0` for an absent or invalid text.
-/

namespace Apiary.Config

variable {steps : List StepConfig} {step : StepConfig}

inductive StepType where
  | agent
  | split
  | approval
  | foreach
  | workflow
  | waitFor
  | parallel
  deriving DecidableEq, Repr

inductive OnMissingOutput where
  | unset
  | warn
  | fail
  | ignore
  deriving DecidableEq, Repr

/-- `on_pass`: a step activated when this one passes. -/
structure StepNext where
  next : String
  deriving DecidableEq

/-- `on_fail` and `on_conflict`: the loop-back target and its retry budget. -/
structure StepOutcome where
  goto : String
  maxRetries : ℕ
  deriving DecidableEq

structure SplitBranch where
  cond : String := ""
  isElse : Bool := false
  goto : String
  deriving DecidableEq

/-- `IsFallback`: the catch-all branch. -/
def SplitBranch.isFallback (branch : SplitBranch) : Bool := branch.isElse || branch.cond == ""

inductive WaitKind where
  | ci
  | dependency
  deriving DecidableEq, Repr

structure WaitForConfig where
  kind : WaitKind := .ci
  maxDuration : ℕ := 0
  deriving DecidableEq

/-- Two hours in nanoseconds, the deadline of a CI wait that names none. -/
def defaultMaxDuration : ℕ := 2 * 3600 * 1000000000

def WaitForConfig.parsedMaxDuration (wait : WaitForConfig) : ℕ :=
  if wait.maxDuration = 0 then
    match wait.kind with
    | .ci => defaultMaxDuration
    | .dependency => 0
  else wait.maxDuration

/-- One declared step.  `step` is the body of a foreach step and `subSteps` are
the children of a parallel group. -/
structure StepConfig where
  id : String
  type : StepType := .agent
  dependsOn : List String := []
  seqDependsOn : List String := []
  condition : String := ""
  failWhen : String := ""
  agent : String := ""
  outputSchema : Option (List String) := none
  onMissingOutput : OnMissingOutput := .unset
  memoryWrite : List String := []
  onPass : Option StepNext := none
  onFail : Option StepOutcome := none
  onConflict : Option StepOutcome := none
  actionClass : String := ""
  idempotent : Bool := false
  multi : Bool := false
  branches : List SplitBranch := []
  approvers : List String := []
  requiredApprovals : ℕ := 0
  timeout : ℕ := 0
  waitFor : Option WaitForConfig := none
  items : String := ""
  concurrency : ℕ := 0
  maxItems : ℕ := 0
  failFast : Bool := false
  step : Option StepConfig := none
  workflow : String := ""
  subSteps : List StepConfig := []
  join : String := ""

/-- The zero value a lookup of an unknown id yields. -/
instance : Inhabited StepConfig := ⟨{ id := "" }⟩

structure WorkflowConfig where
  id : String
  steps : List StepConfig

/-- What `resume:` allows: a request of the operator, a continuation at the next start as
well, or neither. -/
inductive ResumePolicy where
  | allowed
  | auto
  | forbidden
  deriving DecidableEq

/-- The step a map filled in declaration order holds under an id: the last one
declared. -/
def findStep (id : String) : List StepConfig → Option StepConfig
  | [] => none
  | step :: steps =>
    match findStep id steps with
    | some found => some found
    | none => if step.id = id then some step else none

theorem findStep_eq_some {id : String} (hfind : findStep id steps = some step) :
    step ∈ steps ∧ step.id = id := by
  induction steps with
  | nil => simp [findStep] at hfind
  | cons head tail ih =>
    cases htail : findStep id tail with
    | some =>
      simp only [findStep, htail, Option.some.injEq] at hfind
      obtain ⟨hmem, hid⟩ := ih (hfind ▸ htail)
      exact ⟨List.mem_cons_of_mem _ hmem, hid⟩
    | none =>
      simp only [findStep, htail, Option.ite_none_right_eq_some, Option.some.injEq] at hfind
      exact ⟨hfind.2 ▸ List.mem_cons_self, hfind.2 ▸ hfind.1⟩

theorem findStep_eq_none {id : String} (hfind : findStep id steps = none) :
    ∀ step ∈ steps, step.id ≠ id := by
  induction steps with
  | nil => simp
  | cons head tail ih =>
    cases htail : findStep id tail with
    | some => simp [findStep, htail] at hfind
    | none =>
      simp only [findStep, htail, ite_eq_right_iff, reduceCtorEq, imp_false] at hfind
      simpa [hfind] using ih htail

/-- With distinct ids the map holds each declared step under its own id. -/
theorem findStep_of_nodup (hnodup : (steps.map StepConfig.id).Nodup) (hmem : step ∈ steps) :
    findStep step.id steps = some step := by
  cases hfind : findStep step.id steps with
  | none => exact absurd rfl (findStep_eq_none hfind step hmem)
  | some =>
    obtain ⟨hfound, hid⟩ := findStep_eq_some hfind
    rw [List.inj_on_of_nodup_map hnodup hfound hmem hid]

end Apiary.Config
