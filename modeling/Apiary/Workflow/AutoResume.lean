import Apiary.Workflow.Invariants

/-!
# What an automatic resume may run again

A workflow with `resume: auto` is continued without asking anyone, so each of its steps must
stand being run twice.  Validation looks at the agent steps that the workflow itself declares,
and not at the children of groups, the bodies of loops or the workflows it refers to.
-/

namespace Apiary.Workflow

open Config List

structure ResumableWorkflow extends WorkflowConfig where
  resume : ResumePolicy := .allowed

def resumeErrors (ctx : String) (wf : ResumableWorkflow) : List String :=
  if wf.resume = .auto then
    (wf.steps.filter fun s => s.type = .agent && !s.idempotent).map fun s =>
      ctx ++ ": resume: auto requires all steps idempotent, but step " ++ quote s.id ++ " is not"
  else []

def maxSubWorkflowDepth : ℕ := 16

section Reach

variable (workflows : List ResumableWorkflow)

def findWorkflow (id : String) : Option ResumableWorkflow := workflows.find? fun wf => wf.id = id

/-- The workflows that a run of a workflow can start, with the depth at which it does. -/
inductive Reaches (wf : ResumableWorkflow) : ℕ → ResumableWorkflow → Prop
  | self : Reaches wf 0 wf
  | sub {depth child s sub} : Reaches wf depth child → s ∈ child.steps → s.type = .workflow →
      findWorkflow workflows s.workflow = some sub → Reaches wf (depth + 1) sub

/-- The agent steps that a run of the workflow can execute. -/
def Executes (wf : ResumableWorkflow) (unit : StepConfig) : Prop :=
  ∃ depth ≤ maxSubWorkflowDepth, ∃ child, Reaches workflows wf depth child ∧
    ∃ s ∈ child.steps, UnitOf s unit ∧ unit.type = .agent

end Reach

/-- What validation leaves out: the units of groups and loops, and the own steps of a workflow
that is not resumed by itself. -/
structure NestedIdempotent (wf : ResumableWorkflow) : Prop where
  units : ∀ s ∈ wf.steps, s.type = .parallel ∨ s.type = .foreach → ∀ unit, UnitOf s unit →
    unit.type = .agent → unit.idempotent = true
  own : wf.resume ≠ .auto → ∀ s ∈ wf.steps, s.type = .agent → s.idempotent = true

theorem Reaches.mem {workflows : List ResumableWorkflow} {wf child : ResumableWorkflow} {depth : ℕ}
    (hreaches : Reaches workflows wf depth child) (hwf : wf ∈ workflows) : child ∈ workflows := by
  cases hreaches with
  | self => exact hwf
  | sub _ _ _ hfind => exact mem_of_find?_eq_some hfind

theorem resumeErrors_eq_nil {ctx : String} {wf : ResumableWorkflow}
    (hvalid : resumeErrors ctx wf = []) (hauto : wf.resume = .auto) :
    ∀ s ∈ wf.steps, s.type = .agent → s.idempotent = true := by
  intro s hs hagent
  rw [resumeErrors, if_pos hauto, map_eq_nil_iff, filter_eq_nil_iff] at hvalid
  simpa [hagent] using hvalid s hs

/-- With a configuration that passes validation, every agent step that a run of a `resume: auto`
workflow can execute is idempotent exactly when this holds of what validation leaves out. -/
theorem auto_resumed_idempotent_iff (ctx : ResumableWorkflow → String)
    (workflows : List ResumableWorkflow)
    (hvalid : ∀ wf ∈ workflows, resumeErrors (ctx wf) wf = []) :
    (∀ wf ∈ workflows, wf.resume = .auto → ∀ unit, Executes workflows wf unit →
        unit.idempotent = true) ↔
      ∀ wf ∈ workflows, wf.resume = .auto → ∀ depth ≤ maxSubWorkflowDepth, ∀ child,
        Reaches workflows wf depth child → NestedIdempotent child := by
  constructor
  · intro hall wf hwf hauto depth hdepth child hreaches
    refine ⟨fun s hs _ unit hunit hagent => ?_, fun _ s hs hagent => ?_⟩
    · exact hall wf hwf hauto unit ⟨depth, hdepth, child, hreaches, s, hs, hunit, hagent⟩
    · have hunit : UnitOf s s := by rw [UnitOf, hagent]
      exact hall wf hwf hauto s ⟨depth, hdepth, child, hreaches, s, hs, hunit, hagent⟩
  · rintro hnested wf hwf hauto unit ⟨depth, hdepth, child, hreaches, s, hs, hunit, hagent⟩
    have hchild := hnested wf hwf hauto depth hdepth child hreaches
    by_cases htype : s.type = .parallel ∨ s.type = .foreach
    · exact hchild.units s hs htype unit hunit hagent
    obtain rfl : unit = s := by
      rw [UnitOf] at hunit
      split at hunit <;> simp_all
    by_cases hown : child.resume = .auto
    · exact resumeErrors_eq_nil (hvalid child (hreaches.mem hwf)) hown unit hs hagent
    · exact hchild.own hown unit hs hagent

/-- A workflow whose group runs the tests and publishes the package. -/
def publishing (idempotent : Bool) : ResumableWorkflow where
  id := "release"
  steps := [{ id := "checks", type := .parallel, subSteps := [
    { id := "test", agent := "tester", idempotent := true },
    { id := "publish", agent := "publisher", idempotent := idempotent }] }]
  resume := .auto

theorem publishing_idempotent : resumeErrors "" (publishing true) = [] ∧
    ∀ unit, Executes [publishing true] (publishing true) unit → unit.idempotent = true := by
  refine ⟨rfl, (auto_resumed_idempotent_iff (fun _ => "") [publishing true] (by decide)).mpr ?_ _
    mem_cons_self rfl⟩
  intro wf hwf _ depth _ child hreaches
  obtain rfl := mem_singleton.mp (hreaches.mem hwf)
  exact ⟨by simp [publishing, UnitOf], by simp [publishing]⟩

/-- The group's child is not declared idempotent, and the configuration is accepted. -/
theorem publishing_accepted : resumeErrors "workflows[0]" (publishing false) = [] ∧
    ∃ unit, Executes [publishing false] (publishing false) unit ∧ unit.idempotent = false := by
  refine ⟨rfl, { id := "publish", agent := "publisher" }, ⟨0, Nat.zero_le _, publishing false, .self, _,
    mem_cons_self, ?_, rfl⟩, rfl⟩
  exact mem_cons_of_mem _ mem_cons_self

end Apiary.Workflow
