import Apiary.Config.Step
import Apiary.Core.Text

/-!
# Workflow validation

The checks of `validateWorkflow` on step ids and on sensitive action classes.
Errors are collected, and a configuration is accepted when there are none.
-/

namespace Apiary.Config

/-- An approval step that names who may answer it. -/
def StepConfig.isNamedApproval (s : StepConfig) : Bool := s.type = .approval && s.approvers ≠ []

def knownActionClasses : List String := ["push", "deploy", "destructive", "external_publication"]

variable (ctx : String)

/-- Step ids are required and distinct; `seen` holds the ids indexed so far. -/
def stepIDErrors : ℕ → List String → List StepConfig → List String
  | _, _, [] => []
  | index, seen, s :: steps =>
    if s.id = "" then
      (ctx ++ ": steps[" ++ toString index ++ "]: id is required") ::
        stepIDErrors (index + 1) seen steps
    else if s.id ∈ seen then
      (ctx ++ ": duplicate step id " ++ quote s.id) ::
        stepIDErrors (index + 1) (s.id :: seen) steps
    else stepIDErrors (index + 1) (s.id :: seen) steps

/-- What validation accepts as the guard of a step: the step declared right
before it, or any of its dependencies, is an approval that names its approvers. -/
def guarded (all : List StepConfig) (previous : Option StepConfig) (s : StepConfig) : Bool :=
  previous.any StepConfig.isNamedApproval || (s.dependsOn ++ s.seqDependsOn).any fun dep =>
      all.any fun candidate => candidate.id = dep && candidate.isNamedApproval

def actionClassErrors (requireFor : List String) (all : List StepConfig) :
    Option StepConfig → List StepConfig → List String
  | _, [] => []
  | previous, s :: steps =>
    (if s.actionClass = "" then []
     else
       (if s.actionClass ∈ knownActionClasses then []
        else [ctx ++ ": step " ++ quote s.id ++ " has invalid action_class " ++
          quote s.actionClass]) ++
       (if s.actionClass ∈ requireFor && !guarded all previous s then
          [ctx ++ ": step " ++ quote s.id ++ " action_class " ++ quote s.actionClass ++
            " requires a preceding approval step"]
        else [])) ++
      actionClassErrors requireFor all (some s) steps

def validateWorkflow (requireFor : List String) (wf : WorkflowConfig) : List String :=
  if wf.steps = [] then [ctx ++ ": at least one step is required"]
  else
    stepIDErrors ctx 0 [] wf.steps ++ actionClassErrors ctx requireFor wf.steps none wf.steps

variable {ctx}

theorem stepIDErrors_eq_nil {index : ℕ} {seen : List String} {steps : List StepConfig}
    (herrors : stepIDErrors ctx index seen steps = []) :
    (steps.map StepConfig.id).Nodup ∧ ∀ id ∈ seen, id ∉ steps.map StepConfig.id := by
  induction steps generalizing index seen with
  | nil => simp
  | cons s steps ih =>
    rw [stepIDErrors] at herrors
    split at herrors
    · cases herrors
    · split_ifs at herrors with hseen
      obtain ⟨hnodup, hfresh⟩ := ih herrors
      rw [List.map_cons, List.nodup_cons]
      refine ⟨⟨hfresh s.id List.mem_cons_self, hnodup⟩, ?_⟩
      intro id hid hmem
      rcases List.mem_cons.mp hmem with rfl | hmem
      · exact hseen hid
      · exact hfresh id (List.mem_cons_of_mem _ hid) hmem

/-- An accepted workflow declares every step once. -/
theorem validateWorkflow_nodup {requireFor : List String} {wf : WorkflowConfig}
    (hvalid : validateWorkflow ctx requireFor wf = []) :
    (wf.steps.map StepConfig.id).Nodup := by
  rw [validateWorkflow] at hvalid
  split_ifs at hvalid
  exact (stepIDErrors_eq_nil (List.append_eq_nil_iff.mp hvalid).1).1

end Apiary.Config
