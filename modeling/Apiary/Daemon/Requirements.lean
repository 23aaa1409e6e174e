import Apiary.Workflow.References
import Mathlib.Data.List.Sort

/-!
# What a dispatch job requires of its worker

One queue job runs a whole workflow on one worker, so the job asks for the labels, the
capabilities and the runners of all its agents.  `workflowAgentIDs` collects the agents
from the lowered steps.  It follows foreach bodies and the authored `parallel:` children,
which lowering has moved to the sub-steps of a parallel node, and it does not follow
references to other workflows.
-/

namespace Apiary.Daemon

open Config Workflow List

structure AgentConfig where
  id : String
  workerPool : String := ""
  requiresLabels : List String := []
  requiresCapabilities : List String := []
  workspaceAffinity : Bool := false

/-- The parts of the configuration that requirements are computed from; `agentRunner` is
the adapter of an agent. -/
structure Fleet where
  workflows : List AuthoredWorkflow
  agents : List AgentConfig
  agentRunner : String → String := fun _ => ""

structure Requirements where
  pool : String
  labels : List String
  capabilities : List String
  affinity : String

/-- Trimmed, without blanks and duplicates, in order. -/
def uniqueStrings (values : List String) : List String :=
  ((values.map trimmed).filter (· ≠ "")).dedup.insertionSort (· ≤ ·)

mutual

def agentIDsOfStep : AuthoredStep → List String
  | ⟨fields, _, parallelSteps, step⟩ =>
    (if fields.details.agent = "" then [] else [fields.details.agent]) ++ agentIDsOfBody step ++
      workflowAgentIDs parallelSteps

def workflowAgentIDs : List AuthoredStep → List String
  | [] => []
  | s :: steps => agentIDsOfStep s ++ workflowAgentIDs steps

def agentIDsOfBody : Option AuthoredStep → List String
  | none => []
  | some s => agentIDsOfStep s

end

/-- The agents that the steps name where the collector looks: on a step, on the body of a
foreach and on an authored child of a group. -/
inductive Named : List AuthoredStep → String → Prop
  | own {steps s} : s ∈ steps → s.details.agent ≠ "" → Named steps s.details.agent
  | body {steps s body id} : s ∈ steps → s.step = some body → Named [body] id → Named steps id
  | authored {steps s id} : s ∈ steps → Named s.parallelSteps id → Named steps id

namespace Fleet

open List

variable (d : Fleet)

def findWorkflow (id : String) : Option AuthoredWorkflow := d.workflows.find? fun wf => wf.id = id

def runnerCapability (agent : AgentConfig) : List String :=
  if d.agentRunner agent.id = "" then [] else ["runner:" ++ d.agentRunner agent.id]

def requirementsForMatch (taskID routeID routeAgent : String) : Requirements :=
  let ids := match d.findWorkflow routeID with
    | some wf => workflowAgentIDs wf.steps
    | none => [routeAgent]
  let agents := (uniqueStrings ids).flatMap fun id => d.agents.filter fun a => a.id = id
  { pool := agents.foldl (fun pool a => if a.workerPool = "" then pool else a.workerPool) "default"
    labels := uniqueStrings (agents.flatMap AgentConfig.requiresLabels)
    capabilities := uniqueStrings
      (agents.flatMap (fun a => a.requiresCapabilities ++ d.runnerCapability a) ++
        ["apiary.workflow"])
    affinity := if agents.any AgentConfig.workspaceAffinity then "task:" ++ taskID else "" }

/-- The agents that a run of the steps can execute: those of the units its workers run,
and those of the workflows it refers to. -/
inductive Runs : List AuthoredStep → String → Prop
  | unit {steps s unit} : s ∈ steps → UnitOf (toStepConfig s) unit → unit.type = .agent →
      Runs steps unit.agent
  | sub {steps s wf id} : s ∈ steps → s.type = .workflow →
      d.findWorkflow s.details.workflow = some wf → Runs wf.steps id → Runs steps id

/-- What an agent needs is among what the job requires. -/
def Covers (req : Requirements) (id : String) : Prop :=
  ∀ a ∈ d.agents, a.id = id → uniqueStrings a.requiresLabels ⊆ req.labels ∧
    uniqueStrings (a.requiresCapabilities ++ d.runnerCapability a) ⊆ req.capabilities

/-- The agents that the collector does not see: those of group children and of referenced
workflows, and ids with white space around them. -/
inductive Overlooked (steps : List AuthoredStep) : String → Prop
  | child {s c} : s ∈ steps → s.type = .parallel → c ∈ s.subSteps → c.type = .agent →
      Overlooked steps c.details.agent
  | sub {s wf id} : s ∈ steps → s.type = .workflow →
      d.findWorkflow s.details.workflow = some wf → d.Runs wf.steps id → Overlooked steps id
  | padded {id} : d.Runs steps id → trimmed id ≠ id ∨ id = "" → Overlooked steps id

/-- The configured agents whose requirements are collected. -/
def Collected (steps : List AuthoredStep) (b : AgentConfig) : Prop :=
  b ∈ d.agents ∧ b.id ≠ "" ∧ ∃ name, Named steps name ∧ trimmed name = b.id

/-- What an agent needs is needed by a collected agent, too, or by every job. -/
structure Shared (steps : List AuthoredStep) (a : AgentConfig) : Prop where
  labels : ∀ label ∈ a.requiresLabels, trimmed label ≠ "" →
    ∃ b, d.Collected steps b ∧ ∃ other ∈ b.requiresLabels, trimmed other = trimmed label
  capabilities : ∀ cap ∈ a.requiresCapabilities ++ d.runnerCapability a, trimmed cap ≠ "" →
    trimmed cap = "apiary.workflow" ∨ ∃ b, d.Collected steps b ∧
      ∃ other ∈ b.requiresCapabilities ++ d.runnerCapability b, trimmed other = trimmed cap

end Fleet

theorem toStepConfig_type (s : AuthoredStep) : (toStepConfig s).type = s.type := by
  cases s
  rfl

theorem toStepConfig_agent (s : AuthoredStep) : (toStepConfig s).agent = s.details.agent := by
  cases s
  rfl

theorem toStepConfigs_eq_map (steps : List AuthoredStep) :
    toStepConfigs steps = steps.map toStepConfig := by
  induction steps with
  | nil => rfl
  | cons s steps ih => rw [toStepConfigs, ih, map_cons]

theorem mem_uniqueStrings {values : List String} {value : String} :
    value ∈ uniqueStrings values ↔ (∃ v ∈ values, trimmed v = value) ∧ value ≠ "" := by
  simp [uniqueStrings]

theorem uniqueStrings_subset_iff {values more : List String} :
    uniqueStrings values ⊆ uniqueStrings more ↔
      ∀ value ∈ values, trimmed value ≠ "" → ∃ other ∈ more, trimmed other = trimmed value := by
  constructor
  · intro hsub value hvalue hne
    exact (mem_uniqueStrings.mp (hsub (mem_uniqueStrings.mpr ⟨⟨value, hvalue, rfl⟩, hne⟩))).1
  · intro hall value hmem
    obtain ⟨⟨v, hv, rfl⟩, hne⟩ := mem_uniqueStrings.mp hmem
    exact mem_uniqueStrings.mpr ⟨hall v hv hne, hne⟩

/-! ## The collector -/

theorem mem_workflowAgentIDs {steps : List AuthoredStep} {s : AuthoredStep} (hs : s ∈ steps)
    {id : String} (hid : id ∈ agentIDsOfStep s) : id ∈ workflowAgentIDs steps := by
  induction steps with
  | nil => cases hs
  | cons head steps ih =>
    rw [workflowAgentIDs, mem_append]
    rcases mem_cons.mp hs with rfl | hs
    · exact .inl hid
    · exact .inr (ih hs)

theorem Named.mono {steps more : List AuthoredStep} {id : String} (hnamed : Named steps id)
    (hsub : steps ⊆ more) : Named more id := by
  cases hnamed with
  | own hs hne => exact .own (hsub hs) hne
  | body hs hbody hnamed => exact .body (hsub hs) hbody hnamed
  | authored hs hnamed => exact .authored (hsub hs) hnamed

mutual

theorem named_of_mem_agentIDsOfStep : ∀ (s : AuthoredStep) (id : String),
    id ∈ agentIDsOfStep s → Named [s] id
  | ⟨fields, subSteps, parallelSteps, step⟩, id, hid => by
    rw [agentIDsOfStep, mem_append, mem_append] at hid
    rcases hid with (hid | hid) | hid
    · split at hid
      · cases hid
      · rename_i hne
        rw [mem_singleton.mp hid]
        exact .own mem_cons_self hne
    · obtain ⟨body, hbody, hnamed⟩ := named_of_mem_agentIDsOfBody step id hid
      exact .body mem_cons_self hbody hnamed
    · exact .authored mem_cons_self (named_of_mem_workflowAgentIDs parallelSteps id hid)

theorem named_of_mem_workflowAgentIDs : ∀ (steps : List AuthoredStep) (id : String),
    id ∈ workflowAgentIDs steps → Named steps id
  | [], _, hid => by cases hid
  | s :: steps, id, hid => by
    rw [workflowAgentIDs, mem_append] at hid
    rcases hid with hid | hid
    · exact (named_of_mem_agentIDsOfStep s id hid).mono (by simp)
    · exact (named_of_mem_workflowAgentIDs steps id hid).mono (subset_cons_self _ _)

theorem named_of_mem_agentIDsOfBody : ∀ (step : Option AuthoredStep) (id : String),
    id ∈ agentIDsOfBody step → ∃ body, step = some body ∧ Named [body] id
  | none, _, hid => by cases hid
  | some s, id, hid => ⟨s, rfl, named_of_mem_agentIDsOfStep s id hid⟩

end

theorem mem_workflowAgentIDs_iff {steps : List AuthoredStep} {id : String} :
    id ∈ workflowAgentIDs steps ↔ Named steps id := by
  refine ⟨named_of_mem_workflowAgentIDs steps id, fun hnamed => ?_⟩
  induction hnamed with
  | @own steps s hs hne =>
    refine mem_workflowAgentIDs hs ?_
    obtain ⟨fields, subSteps, parallelSteps, step⟩ := s
    rw [agentIDsOfStep, if_neg hne]
    exact mem_append_left _ (mem_append_left _ mem_cons_self)
  | @body steps s body id hs hbody _ ih =>
    refine mem_workflowAgentIDs hs ?_
    obtain ⟨fields, subSteps, parallelSteps, step⟩ := s
    obtain rfl : step = some body := hbody
    simp only [workflowAgentIDs, append_nil] at ih
    rw [agentIDsOfStep, agentIDsOfBody]
    exact mem_append_left _ (mem_append_right _ ih)
  | @authored steps s id hs _ ih =>
    refine mem_workflowAgentIDs hs ?_
    obtain ⟨fields, subSteps, parallelSteps, step⟩ := s
    rw [agentIDsOfStep]
    exact mem_append_right _ ih

section Coverage

variable {d : Fleet} {taskID routeID routeAgent : String} {wf : AuthoredWorkflow}

/-- A need of some collected agent. -/
theorem exists_collected_iff {steps : List AuthoredStep} {needs : AgentConfig → List String}
    {value : String} :
    (∃ other ∈ ((uniqueStrings (workflowAgentIDs steps)).flatMap fun id =>
      d.agents.filter fun a => a.id = id).flatMap needs, trimmed other = value) ↔
    ∃ b, d.Collected steps b ∧ ∃ other ∈ needs b, trimmed other = value := by
  have hmem : ∀ b, (b ∈ (uniqueStrings (workflowAgentIDs steps)).flatMap fun id =>
      d.agents.filter fun a => a.id = id) ↔ d.Collected steps b := by
    intro b
    simp only [mem_flatMap, mem_filter, decide_eq_true_eq, mem_uniqueStrings, Fleet.Collected,
      mem_workflowAgentIDs_iff]
    constructor
    · rintro ⟨id, ⟨hname, hne⟩, hb, rfl⟩
      exact ⟨hb, hne, hname⟩
    · rintro ⟨hb, hne, hname⟩
      exact ⟨b.id, ⟨hname, hne⟩, hb, rfl⟩
  constructor
  · rintro ⟨other, hother, heq⟩
    obtain ⟨b, hb, hneed⟩ := mem_flatMap.mp hother
    exact ⟨b, (hmem b).mp hb, other, hneed, heq⟩
  · rintro ⟨b, hb, other, hneed, heq⟩
    exact ⟨other, mem_flatMap.mpr ⟨b, (hmem b).mpr hb, hneed⟩, heq⟩

/-- The job requires what the agents with an id need exactly when it is shared with collected
agents. -/
theorem covers_iff (hwf : d.findWorkflow routeID = some wf) (id : String) :
    d.Covers (d.requirementsForMatch taskID routeID routeAgent) id ↔
      ∀ a ∈ d.agents, a.id = id → d.Shared wf.steps a := by
  have hjob : trimmed "apiary.workflow" = "apiary.workflow" := by decide +kernel
  refine forall₃_congr fun a _ _ => ?_
  simp only [Fleet.requirementsForMatch, hwf, uniqueStrings_subset_iff]
  refine Iff.trans (and_congr ?_ ?_) ⟨fun h => ⟨h.1, h.2⟩, fun h => ⟨h.labels, h.capabilities⟩⟩
  · exact forall₃_congr fun label _ _ => exists_collected_iff
  · refine forall₃_congr fun cap _ _ => ?_
    rw [← exists_collected_iff]
    constructor
    · rintro ⟨other, hother, heq⟩
      rcases mem_append.mp hother with hother | hother
      · exact .inr ⟨other, hother, heq⟩
      · rw [mem_singleton.mp hother, hjob] at heq
        exact .inl heq.symm
    · rintro (heq | ⟨other, hother, heq⟩)
      · exact ⟨_, mem_append_right _ mem_cons_self, hjob.trans heq.symm⟩
      · exact ⟨other, mem_append_left _ hother, heq⟩

theorem collected_shared {steps : List AuthoredStep} {a : AgentConfig}
    (hcollected : d.Collected steps a) : d.Shared steps a where
  labels label hlabel _ := ⟨a, hcollected, label, hlabel, rfl⟩
  capabilities cap hcap _ := .inr ⟨a, hcollected, cap, hcap, rfl⟩

theorem overlooked_of_not_named {steps : List AuthoredStep} {id : String} (hruns : d.Runs steps id)
    (hnot : ¬ (id ≠ "" ∧ ∃ name, Named steps name ∧ trimmed name = id)) :
    d.Overlooked steps id := by
  by_cases hpadded : trimmed id ≠ id ∨ id = ""
  · exact .padded hruns hpadded
  · rw [not_or, not_ne_iff] at hpadded
    obtain ⟨htrimmed, hne⟩ := hpadded
    have hunseen : ¬ Named steps id := fun hnamed => hnot ⟨hne, id, hnamed, htrimmed⟩
    cases hruns with
    | sub hs htype hfind hruns => exact .sub hs htype hfind hruns
    | @unit _ s unit hs hunit hagent =>
      obtain ⟨fields, subSteps, parallelSteps, step⟩ := s
      simp only [UnitOf, toStepConfig] at hunit
      split at hunit
      · rename_i htype
        obtain ⟨c, hc, rfl⟩ := mem_map.mp (toStepConfigs_eq_map subSteps ▸ hunit)
        rw [toStepConfig_type] at hagent
        rw [toStepConfig_agent]
        exact .child hs htype hc hagent
      · obtain ⟨body, index, hbody, rfl⟩ := hunit
        cases step with
        | none => cases hbody
        | some s =>
          cases hbody
          have hagent : ∀ step, (itemStep step (toStepConfig s) index).agent = s.details.agent :=
            fun _ => toStepConfig_agent s
          rw [hagent] at hunseen hne
          exact absurd (.body hs rfl (.own mem_cons_self hne)) hunseen
      · subst hunit
        exact absurd (.own hs hne) hunseen

end Coverage

/-- The requirements of a workflow's job cover every agent it can run exactly when the agents
that the collector does not see need nothing that no collected agent needs. -/
theorem requirements_cover_iff (d : Fleet) (taskID routeID routeAgent : String) :
    (∀ wf ∈ d.findWorkflow routeID, ∀ id, d.Runs wf.steps id →
        d.Covers (d.requirementsForMatch taskID routeID routeAgent) id) ↔
      ∀ wf ∈ d.findWorkflow routeID, ∀ id, d.Overlooked wf.steps id →
        ∀ a ∈ d.agents, a.id = id → d.Shared wf.steps a := by
  refine forall₂_congr fun wf hwf => ?_
  constructor
  · intro hcovers id hoverlooked
    apply (covers_iff hwf id).mp
    apply hcovers
    cases hoverlooked with
    | @child s c hs htype hc hagent =>
      rw [← toStepConfig_agent]
      refine .unit hs ?_ ((toStepConfig_type c).trans hagent)
      obtain ⟨fields, subSteps, parallelSteps, step⟩ := s
      simp only [UnitOf, toStepConfig, show fields.type = .parallel from htype,
        toStepConfigs_eq_map]
      exact mem_map_of_mem hc
    | sub hs htype hfind hruns => exact .sub hs htype hfind hruns
    | padded hruns => exact hruns
  · intro hshared id hruns
    apply (covers_iff hwf id).mpr
    intro a ha haid
    by_cases hnamed : id ≠ "" ∧ ∃ name, Named wf.steps name ∧ trimmed name = id
    · exact collected_shared ⟨ha, haid ▸ hnamed⟩
    · exact hshared id (overlooked_of_not_named hruns hnamed) a ha haid

/-- A workflow with a group whose child runs on workers with a GPU. -/
def gpuFleet : Fleet where
  workflows := [{ id := "ship", steps := [
    { id := "implement", details := { agent := "coder" } },
    { id := "checks", type := .parallel, subSteps := [
      { id := "bench", details := { agent := "bencher" } }] }] }]
  agents := [{ id := "coder" }, { id := "bencher", requiresLabels := ["gpu"] }]

/-- Its job can go to a worker without one. -/
theorem gpu_not_required : ∃ wf, gpuFleet.findWorkflow "ship" = some wf ∧
    gpuFleet.Runs wf.steps "bencher" ∧
    ¬ gpuFleet.Covers (gpuFleet.requirementsForMatch "task-1" "ship" "coder") "bencher" := by
  refine ⟨_, rfl, ?_, ?_⟩
  · have hunit : UnitOf (toStepConfig { id := "checks", type := .parallel, subSteps := [
        { id := "bench", details := { agent := "bencher" } }] })
        { id := "bench", agent := "bencher" } := mem_cons_self
    exact .unit (mem_cons_of_mem _ mem_cons_self) hunit rfl
  · intro hcovers
    have hlabels := (hcovers _ (mem_cons_of_mem _ mem_cons_self) rfl).1
    revert hlabels
    decide

end Apiary.Daemon
