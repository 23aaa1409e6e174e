import Apiary.Core.Text
import Apiary.Workflow.Skipping

/-!
# Memory, expressions and result gates

What a condition, a split or a `fail_when` gate reads, and how a step's own
result can be turned into a failure after its agent succeeded.
-/

namespace Apiary.Workflow

open Config Function

/-! ## Expressions -/

/-- Removes the optional dollar-brace wrapper of an authored expression. -/
def stripExprDelimiters (s : String) : String :=
  let body := trimSpace s.toList
  let opening := "$\x7b\x7b".toList
  let closing := "\x7d\x7d".toList
  if opening.isPrefixOf body && closing.isSuffixOf body then
    String.ofList (trimSpace ((body.drop 3).take (body.length - 5)))
  else String.ofList body

variable (e : Engine)

def evalExpr (src : String) (ctx : EvalContext) : Except String Bool :=
  match e.parseExpr (stripExprDelimiters src) with
  | .error err => .error err
  | .ok expr => e.eval expr ctx

/-! ## Memory -/

def DagRun.memSteps (r : DagRun) : List MemoryStep :=
  r.seed ++ (order r.wf).flatMap fun id =>
    (r.contrib id).toList ++
      (byID r.wf id).subSteps.filterMap (fun child => r.contrib child.id) ++ r.feedback id

/-- Writes rendered fields over a memory map; the last write wins. -/
def overlay (memory : String → Option String) (fields : Structured) : String → Option String :=
  fields.foldl (fun m field => update m field.1 (some (e.renderValue field.2))) memory

def memoryValuesFrom (steps : List MemoryStep) : String → Option String :=
  steps.foldl
    (fun m ms => overlay e m (ms.writeFields.filterMap fun field =>
      (ms.structured.lookup field).map fun v => (field, v)))
    fun _ => none

def DagRun.evalContext (r : DagRun) : EvalContext where
  cell := r.cell
  memory := memoryValuesFrom e r.memSteps
  steps := r.stepStates
  event := r.event

/-- What a failed step that loops back leaves visible to its loop target. -/
def failedContribs (step : StepConfig) (res : StepResult)
    (parallelContribs : List MemoryStep) : List MemoryStep :=
  if step.type = .parallel then parallelContribs
  else if res.structuredOutput = [] then []
  else
    [{ stepID := step.id, writeFields := step.memoryWrite,
       structured := res.structuredOutput, summary := res.summary }]

/-! ## Split routing -/

def branchMatches (ctx : EvalContext) (branch : SplitBranch) : Except String Bool :=
  if branch.isFallback then .ok true
  else
    match e.parseExpr branch.cond with
    | .error err => .error ("branch " ++ quote branch.cond ++ ": " ++ err)
    | .ok expr =>
      match e.eval expr ctx with
      | .error err => .error ("branch " ++ quote branch.cond ++ ": " ++ err)
      | .ok matched => .ok matched

/-- The chosen targets: the first matching branch, or every matching one. -/
def chooseBranches (ctx : EvalContext) (multi : Bool) :
    List SplitBranch → Except String (List String)
  | [] => .ok []
  | branch :: branches =>
    match branchMatches e ctx branch with
    | .error err => .error err
    | .ok false => chooseBranches ctx multi branches
    | .ok true =>
      if multi then
        match chooseBranches ctx multi branches with
        | .error err => .error err
        | .ok chosen => .ok (branch.goto :: chosen)
      else .ok [branch.goto]

/-- Skips an unchosen target of a split that nothing else can activate. -/
def DagRun.skipUnchosen (r : DagRun) (chosen : List String) (b : SplitBranch) : DagRun :=
  if b.goto ≠ "" && b.goto ∉ chosen && !r.activated b.goto &&
      feedingSplitsDone r.wf r.state b.goto then r.markSkipped b.goto
  else r

/-- Activates the chosen targets of a split and skips the others. -/
def DagRun.routeSplit (r : DagRun) (step : StepConfig) (chosen : List String) : DagRun :=
  let passed := { r with
    state := update r.state step.id (some .passed)
    stepStates := update r.stepStates step.id (some { state := .passed })
    activated := fun id =>
      r.activated id || step.branches.any fun b => b.goto ≠ "" && b.goto = id && b.goto ∈ chosen }
  step.branches.foldl (fun r b => r.skipUnchosen chosen b) passed

/-- An unevaluable branch fails the split before anything is changed. -/
def runSplitStep (r : DagRun) (step : StepConfig) : Except String DagRun :=
  match chooseBranches e (r.evalContext e) step.multi step.branches with
  | .error err => .error err
  | .ok chosen => .ok (r.routeSplit step chosen)

theorem skipUnchosen_cascades (r : DagRun) (chosen : List String) (b : SplitBranch) :
    ∃ state, Cascades r.wf (fun id => b.goto = id ∧ r.activated id = false) r.state state ∧
      r.skipUnchosen chosen b = { r with state := state } := by
  rw [DagRun.skipUnchosen]
  split_ifs with hunchosen
  · simp only [Bool.and_eq_true, Bool.not_eq_true'] at hunchosen
    refine ⟨_, (cascadeSkip_cascades r.wf _ r.state b.goto).mono ?_, rfl⟩
    rintro _ rfl
    exact ⟨rfl, hunchosen.1.2⟩
  · exact ⟨r.state, Cascades.refl r.state, rfl⟩

theorem foldl_skipUnchosen_cascades (chosen : List String) (branches : List SplitBranch)
    (r : DagRun) :
    ∃ state, Cascades r.wf (fun id => (∃ b ∈ branches, b.goto = id) ∧ r.activated id = false)
        r.state state ∧
      branches.foldl (fun r b => r.skipUnchosen chosen b) r = { r with state := state } := by
  induction branches generalizing r with
  | nil => exact ⟨r.state, Cascades.refl r.state, rfl⟩
  | cons b branches ih =>
    obtain ⟨mid, hmid, heq⟩ := skipUnchosen_cascades r chosen b
    obtain ⟨last, hlast, hrest⟩ := ih { r with state := mid }
    refine ⟨last, (hmid.mono ?_).trans (hlast.mono ?_), ?_⟩
    · exact fun id h => ⟨⟨b, List.mem_cons_self, h.1⟩, h.2⟩
    · exact fun id ⟨⟨b', hb', hgoto⟩, h⟩ => ⟨⟨b', List.mem_cons_of_mem _ hb', hgoto⟩, h⟩
    · rw [List.foldl_cons, heq, hrest]

/-- What routing a split leaves alone: everything but step states, recorded
results and activations.  The split itself passes, and targets that nothing
activated are skipped. -/
theorem routeSplit_eq (r : DagRun) (step : StepConfig) (chosen : List String) :
    ∃ state, Skips (fun id => (∃ b ∈ step.branches, b.goto = id) ∧ r.activated id = false)
        (update r.state step.id (some .passed)) state ∧
      r.routeSplit step chosen = { r with
          state := state
          stepStates := update r.stepStates step.id (some { state := .passed })
          activated := fun id => r.activated id ||
            step.branches.any fun b => b.goto ≠ "" && b.goto = id && b.goto ∈ chosen } := by
  obtain ⟨state, hskips, heq⟩ := foldl_skipUnchosen_cascades chosen step.branches
    { r with
      state := update r.state step.id (some .passed)
      stepStates := update r.stepStates step.id (some { state := .passed })
      activated := fun id => r.activated id ||
        step.branches.any fun b => b.goto ≠ "" && b.goto = id && b.goto ∈ chosen }
  refine ⟨state, hskips.skips.mono ?_, heq⟩
  rintro id ⟨htarget, hactivated⟩
  exact ⟨htarget, (Bool.or_eq_false_iff.mp hactivated).1⟩

theorem routeSplit_changes (r : DagRun) (step : StepConfig) (chosen : List String) :
    ChangesTo (fun st => st = .passed ∨ st = .skipped) r.state (r.routeSplit step chosen).state := by
  obtain ⟨state, hskips, heq⟩ := routeSplit_eq r step chosen
  rw [heq]
  exact (ChangesTo.update _ step.id (.inl rfl)).trans (hskips.changes.mono fun _ => .inr)

/-- Whether routing leaves a step activated. -/
def activatedBy (r : DagRun) (step : StepConfig) (chosen : List String) (id : String) : Bool :=
  r.activated id || step.branches.any fun b => b.goto ≠ "" && b.goto = id && b.goto ∈ chosen

/-- Routing a split skips no step that is activated afterwards, unless a dependency
of it is skipped. -/
theorem routeSplit_cascades (r : DagRun) (step : StepConfig) (chosen : List String) : Cascades r.wf
      (fun id => (∃ b ∈ step.branches, b.goto = id) ∧ activatedBy r step chosen id = false)
      (update r.state step.id (some .passed)) (r.routeSplit step chosen).state ∧
    (r.routeSplit step chosen).activated = activatedBy r step chosen := by
  obtain ⟨state, hcascades, heq⟩ := foldl_skipUnchosen_cascades chosen step.branches
    { r with
      state := update r.state step.id (some .passed)
      stepStates := update r.stepStates step.id (some { state := .passed })
      activated := activatedBy r step chosen }
  have hroute : r.routeSplit step chosen = _ := heq
  rw [hroute]
  exact ⟨hcascades, rfl⟩

/-! ## Result gates -/

/-- The result and whether the step-run row has to be marked failed. -/
abbrev Gated := StepResult × Bool

def applyMissingOutput (step : StepConfig) (res : StepResult) : Gated :=
  if !res.success || step.outputSchema.isNone || res.structuredOutput ≠ [] ||
      step.onMissingOutput = .ignore then (res, false)
  else if step.onMissingOutput = .fail then
    ({ res with
       success := false
       output := "on_missing_output=fail: step " ++ quote step.id ++
         " declared an output schema but emitted no APIARY_OUTPUT" }, true)
  else (res, false)

/-- The memory keys a gate reads that its own step declared and did not emit. -/
def unevaluableGateKeys (gate : e.Expr) (step : StepConfig) (res : StepResult)
    (parallelContribs : List MemoryStep) : List String :=
  let declared :=
    if step.type = .parallel then parallelContribs.flatMap MemoryStep.writeFields
    else step.memoryWrite
  let produced :=
    if step.type = .parallel then
      parallelContribs.flatMap fun c => c.structured.map Prod.fst
    else res.structuredOutput.map Prod.fst
  (e.memoryRefs gate).filter fun key => key ∈ declared && key ∉ produced

/-- The keys that make a gate fail closed, unless the step opted out. -/
def failClosedKeys (gate : e.Expr) (step : StepConfig) (res : StepResult)
    (parallelContribs : List MemoryStep) : List String :=
  if step.onMissingOutput = .ignore then []
  else unevaluableGateKeys e gate step res parallelContribs

/-- The memory a gate sees: the run's, under what the step just emitted. -/
def transientMemory (r : DagRun) (step : StepConfig) (res : StepResult)
    (parallelContribs : List MemoryStep) : String → Option String :=
  let own := overlay e (memoryValuesFrom e r.memSteps) res.structuredOutput
  if step.type = .parallel then
    parallelContribs.foldl (fun m c => overlay e m c.structured) own
  else own

/-- `fail_when`: an unparsable or unevaluable gate fails the step, and so does a
gate that matches. -/
def applyFailWhen (r : DagRun) (step : StepConfig) (res : StepResult)
    (parallelContribs : List MemoryStep) : Gated :=
  let evalError err := "fail_when eval error " ++ quote step.failWhen ++ ": " ++ err
  match e.parseExpr (stripExprDelimiters step.failWhen) with
  | .error err => ({ res with success := false, output := evalError err }, true)
  | .ok gate =>
    if failClosedKeys e gate step res parallelContribs ≠ [] then
      ({ res with
         success := false
         output := "gate " ++ quote step.failWhen ++
           " cannot be evaluated: step declared memory.write key(s) " ++
           ", ".intercalate (failClosedKeys e gate step res parallelContribs) ++
           " but emitted no value for them " ++
           "(missing or incomplete APIARY_OUTPUT) — failing closed" }, true)
    else
      match e.eval gate { r.evalContext e with
          memory := transientMemory e r step res parallelContribs } with
      | .error err => ({ res with success := false, output := evalError err }, true)
      | .ok true => ({ res with success := false }, true)
      | .ok false => (res, false)

end Apiary.Workflow
