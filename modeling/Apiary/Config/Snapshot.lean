import Apiary.Config.Guards

/-!
# The snapshot of a workflow

An instance stores the workflow it was started with.  Environment overlays may hold
expanded secrets, so `persistWorkflowSnapshot` drops the overlay of the workflow and
those of its steps first.  It walks the flat list only: a child of a parallel node or
the body of a foreach node keeps its overlay, values included.
-/

namespace Apiary.Config

abbrev Env := List (String × String)

/-- The overlay with other values under its keys. -/
def Env.expand (value : String → String) (env : Env) : Env :=
  env.map fun entry => (entry.1, value entry.2)

/-- A workflow with its own overlay. -/
structure OverlaidWorkflow extends AuthoredWorkflow where
  env : Env := []

def AuthoredStep.withEnv (s : AuthoredStep) (env : Env) : AuthoredStep :=
  { s with details := { s.details with env := env } }

/-- What `persistWorkflowSnapshot` stores. -/
def OverlaidWorkflow.snapshot (wf : OverlaidWorkflow) : OverlaidWorkflow :=
  { wf with env := [], steps := wf.steps.map fun s => s.withEnv [] }

mutual

/-- Gives every entry of every overlay, at any depth, the value of the name it holds. -/
def expandStep (value : String → String) : AuthoredStep → AuthoredStep
  | ⟨fields, subSteps, parallelSteps, step⟩ =>
    ⟨{ fields with
        details := { fields.details with env := Env.expand value fields.details.env } },
      expandSteps value subSteps, expandSteps value parallelSteps, expandBody value step⟩

def expandSteps (value : String → String) : List AuthoredStep → List AuthoredStep
  | [] => []
  | s :: steps => expandStep value s :: expandSteps value steps

def expandBody (value : String → String) : Option AuthoredStep → Option AuthoredStep
  | none => none
  | some s => some (expandStep value s)

end

/-- The configuration a text gives with these values.  Two configurations differ only in
values of overlays if one text gives both. -/
def OverlaidWorkflow.expand (wf : OverlaidWorkflow) (value : String → String) : OverlaidWorkflow :=
  { wf with env := wf.env.expand value, steps := expandSteps value wf.steps }

section Values

variable {f g : String → String}

mutual

theorem expandStep_eq_iff : ∀ s, expandStep f s = expandStep g s ↔
    ∀ t ∈ allStepsOf s, Env.expand f t.details.env = Env.expand g t.details.env
  | ⟨fields, subSteps, parallelSteps, step⟩ => by
    simp only [expandStep, allStepsOf, List.forall_mem_cons, List.forall_mem_append,
      AuthoredStep.mk.injEq, StepFields.mk.injEq, StepDetails.mk.injEq, true_and, and_true,
      expandSteps_eq_iff subSteps, expandSteps_eq_iff parallelSteps, expandBody_eq_iff step,
      and_assoc]

theorem expandSteps_eq_iff : ∀ steps, expandSteps f steps = expandSteps g steps ↔
    ∀ t ∈ allSteps steps, Env.expand f t.details.env = Env.expand g t.details.env
  | [] => by simp [expandSteps, allSteps]
  | s :: steps => by
    rw [expandSteps, expandSteps, allSteps, List.cons.injEq, List.forall_mem_append,
      expandStep_eq_iff s, expandSteps_eq_iff steps]

theorem expandBody_eq_iff : ∀ step, expandBody f step = expandBody g step ↔
    ∀ t ∈ allStepsOfBody step, Env.expand f t.details.env = Env.expand g t.details.env
  | none => by simp [expandBody, allStepsOfBody]
  | some s => by
    rw [expandBody, expandBody, allStepsOfBody, Option.some.injEq, expandStep_eq_iff s]

end

/-- Without its own overlay a step shows those of the steps inside it. -/
theorem withEnv_expandStep_eq_iff (s : AuthoredStep) :
    (expandStep f s).withEnv [] = (expandStep g s).withEnv [] ↔
      ∀ t ∈ allStepsBelow s, Env.expand f t.details.env = Env.expand g t.details.env := by
  obtain ⟨fields, subSteps, parallelSteps, step⟩ := s
  simp only [expandStep, AuthoredStep.withEnv, allStepsBelow, List.forall_mem_append,
    AuthoredStep.mk.injEq, true_and, expandSteps_eq_iff, expandBody_eq_iff, and_assoc]

theorem snapshot_expand_eq_iff (wf : OverlaidWorkflow) :
    (wf.expand f).snapshot = (wf.expand g).snapshot ↔ ∀ s ∈ wf.steps, ∀ t ∈ allStepsBelow s,
      Env.expand f t.details.env = Env.expand g t.details.env := by
  have hmap (h : String → String) (steps : List AuthoredStep) :
      expandSteps h steps = steps.map (expandStep h) := by
    induction steps with
    | nil => rfl
    | cons s steps ih => rw [expandSteps, ih, List.map_cons]
  simp only [OverlaidWorkflow.snapshot, OverlaidWorkflow.expand, OverlaidWorkflow.mk.injEq,
    AuthoredWorkflow.mk.injEq, true_and, and_true, hmap, List.map_map, List.map_inj_left,
    Function.comp_apply, withEnv_expandStep_eq_iff]

end Values

/-- The snapshot hides the values of a workflow's overlays exactly when no step below the
flat list, a child of a parallel node or the body of a foreach node, has an overlay. -/
theorem snapshot_hides_iff (wf : OverlaidWorkflow) :
    (∀ f g, (wf.expand f).snapshot = (wf.expand g).snapshot) ↔
      ∀ s ∈ wf.steps, ∀ t ∈ allStepsBelow s, t.details.env = [] := by
  constructor
  · intro hhides s hs t ht
    have hsame := snapshot_expand_eq_iff wf |>.mp (hhides (fun _ => "") fun _ => "x") s hs t ht
    cases henv : t.details.env with
    | nil => rfl
    | cons => simp [henv, Env.expand] at hsame
  · intro hbare f g
    rw [snapshot_expand_eq_iff]
    intro s hs t ht
    rw [hbare s hs t ht]
    rfl

/-- A review group whose child gets a token from the environment. -/
def tokenWorkflow : OverlaidWorkflow where
  id := "review"
  steps := [{ id := "checks", type := .parallel, subSteps := [
    { id := "scan", details := { agent := "scanner", env := [("TOKEN", "SCAN_TOKEN")] } }] }]

/-- Two tokens give two snapshots. -/
theorem token_in_snapshot : (tokenWorkflow.expand fun _ => "first").snapshot ≠
      (tokenWorkflow.expand fun _ => "second").snapshot := by
  intro heq
  have henvs := congrArg (fun wf => (allSteps wf.steps).map fun t => t.details.env) heq
  revert henvs
  decide

end Apiary.Config
