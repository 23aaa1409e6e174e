import Apiary.Expr.Eval
import Apiary.Workflow.UnitRows

/-!
# Gates that fail closed

A gate that reads a key its own step should have written, and did not, fails the step.
For a parallel group the keys are taken from the contributions of the children, and only
children that passed contribute: under a join that lets a child fail, the gate does not
notice the keys that this child owes it.
-/

namespace Apiary.Workflow

open Config

section Keys

variable (w : Worker) (key : String)

/-- The step, or a child of the group, lists the key under `memory.write`. -/
def Worker.Declares : Prop :=
  key ∈ w.step.memoryWrite ∨ (w.step.type = .parallel ∧ ∃ u ∈ w.units, key ∈ u.step.memoryWrite)

/-- A unit emitted the key, whether it passed or not. -/
def Worker.Produces : Prop :=
  ∃ u ∈ w.units, ∃ res, u.phase = .finished res ∧ key ∈ res.structuredOutput.map Prod.fst

/-- A unit passed and lists the key. -/
def Worker.PassedDeclares : Prop :=
  ∃ u ∈ w.units, ∃ res, u.phase = .finished res ∧ res.success = true ∧ key ∈ u.step.memoryWrite

/-- A unit passed and emitted the key. -/
def Worker.PassedProduces : Prop :=
  ∃ u ∈ w.units, ∃ res, u.phase = .finished res ∧ res.success = true ∧
    key ∈ res.structuredOutput.map Prod.fst

end Keys

/-- The gate reads a key that this execution should have produced and did not. -/
structure Unmet (e : Engine) (w : Worker) (gate : e.Expr) : Prop where
  authored : w.step.failWhen ≠ ""
  parsed : e.parseExpr (stripExprDelimiters w.step.failWhen) = .ok gate
  closed : w.step.onMissingOutput ≠ .ignore
  owed : ∃ key ∈ e.memoryRefs gate, w.Declares key ∧ ¬ w.Produces key

/-- A group that joined, in which no child that passed owes the gate a key, and whose gate
does not match what memory holds. -/
structure LetThrough (e : Engine) (s : DriveState) (w : Worker) (gate : e.Expr) : Prop where
  group : w.step.type = .parallel
  live : s.ctxErr = none
  joined : (w.result e s.run.cell).res.success = true
  lenient : w.step.outputSchema = none ∨ w.step.onMissingOutput ≠ .fail
  paid : ∀ key ∈ e.memoryRefs gate, w.PassedDeclares key → w.PassedProduces key
  unmatched : e.eval gate { (s.run.closeWindow w.step).evalContext e with
    memory := transientMemory e (s.run.closeWindow w.step) w.step (w.result e s.run.cell).res
      (w.result e s.run.cell).parallelContribs } = .ok false

section Results

variable {e : Engine} {cell : SourceItem} {w : Worker} {key : String}

theorem joinParallel_structured (results : List ChildResult) :
    (joinParallel e cell w results).res.structuredOutput = [] := by
  have hjoined := joinParallel_joined e cell w results
  generalize joinParallel e cell w results = wr at hjoined ⊢
  cases hjoined <;> rfl

theorem result_produces (hkey : key ∈ (w.result e cell).res.structuredOutput.map Prod.fst) :
    w.Produces key := by
  rw [Worker.result] at hkey
  split at hkey
  · simp [joinParallel_structured] at hkey
  · split at hkey
    · cases hkey
    · simp [foreachStepResult] at hkey
  · cases hfind : w.units.findSome? UnitRun.result? with
    | none => simp [hfind] at hkey
    | some res =>
      obtain ⟨u, hu, hres⟩ := List.exists_of_findSome?_eq_some hfind
      rw [hfind] at hkey
      exact ⟨u, hu, res, result?_eq_some.mp hres, hkey⟩

/-- For a group the code counts what the children that passed declare and emit. -/
theorem unevaluableGateKeys_group (hparallel : w.step.type = .parallel)
    (hsuccess : (w.result e cell).res.success = true) (gate : e.Expr) (res : StepResult) :
    unevaluableGateKeys e gate w.step res (w.result e cell).parallelContribs = [] ↔
      ∀ key ∈ e.memoryRefs gate, w.PassedDeclares key → w.PassedProduces key := by
  rw [result_parallel hparallel] at hsuccess ⊢
  rw [joinParallel_success hsuccess, unevaluableGateKeys, if_pos hparallel, if_pos hparallel,
    List.filter_eq_nil_iff]
  refine forall₂_congr fun key _ => ?_
  have hmem (f : MemoryStep → List String) : key ∈ (childContribs w.childResults).flatMap f ↔
      ∃ u ∈ w.units, ∃ res, u.phase = .finished res ∧ res.success = true ∧
        key ∈ f ⟨u.step.id, u.step.memoryWrite, res.structuredOutput, res.summary⟩ := by
    simp only [childContribs, List.mem_flatMap, List.mem_map, List.mem_filter]
    constructor
    · rintro ⟨_, ⟨⟨child, res⟩, ⟨hcr, hpassed⟩, rfl⟩, hkey⟩
      obtain ⟨u, hu, rfl, hphase⟩ := mem_childResults.mp hcr
      exact ⟨u, hu, res, hphase, hpassed, hkey⟩
    · rintro ⟨u, hu, res, hphase, hpassed, hkey⟩
      exact ⟨_, ⟨_, ⟨mem_childResults.mpr ⟨u, hu, rfl, hphase⟩, hpassed⟩, rfl⟩, hkey⟩
  rw [Bool.and_eq_true, decide_eq_true_eq, decide_eq_true_eq, not_and_not_right, hmem, hmem]
  rfl

theorem applyFailWhen_success_iff {r : DagRun} {step : StepConfig} {res : StepResult}
    {contribs : List MemoryStep} {gate : e.Expr}
    (hparsed : e.parseExpr (stripExprDelimiters step.failWhen) = .ok gate)
    (hsuccess : res.success = true) :
    (applyFailWhen e r step res contribs).1.success = true ↔
      failClosedKeys e gate step res contribs = [] ∧
        e.eval gate { r.evalContext e with memory := transientMemory e r step res contribs } =
          .ok false := by
  simp only [applyFailWhen, hparsed]
  by_cases hkeys : failClosedKeys e gate step res contribs = []
  · rw [if_neg (not_not_intro hkeys)]
    split <;> simp_all
  · simp [hkeys]

theorem gated_success_iff {s : DriveState} {wr : WorkerResult} {gate : e.Expr}
    (hauthored : wr.step.failWhen ≠ "")
    (hparsed : e.parseExpr (stripExprDelimiters wr.step.failWhen) = .ok gate) :
    (gated e s wr).1.success = true ↔ s.ctxErr = none ∧ wr.res.success = true ∧
      applyMissingOutput wr.step wr.res = (wr.res, false) ∧
      failClosedKeys e gate wr.step wr.res wr.parallelContribs = [] ∧
      e.eval gate { (s.run.closeWindow wr.step).evalContext e with
        memory := transientMemory e (s.run.closeWindow wr.step) wr.step wr.res
          wr.parallelContribs } = .ok false := by
  have happlies (hlive : s.ctxErr = none) (hreported : wr.res.success = true)
      (hsame : applyMissingOutput wr.step wr.res = (wr.res, false)) :
      gated e s wr =
        applyFailWhen e (s.run.closeWindow wr.step) wr.step wr.res wr.parallelContribs := by
    rw [gated, hlive, canceledResult, gateResult, hsame]
    exact if_pos (by simp [hreported, hauthored])
  constructor
  · intro hsuccess
    obtain ⟨hlive, hreported, -⟩ := gated_success hsuccess
    refine ⟨hlive, hreported, ?_⟩
    rcases applyMissingOutput_cases wr.step wr.res with hsame | hfailed
    · rw [happlies hlive hreported hsame, applyFailWhen_success_iff hparsed hreported] at hsuccess
      exact ⟨hsame, hsuccess⟩
    · rw [gated, hlive, canceledResult, gateResult] at hsuccess
      simp [hfailed] at hsuccess
  · rintro ⟨hlive, hreported, hsame, hgate⟩
    rw [happlies hlive hreported hsame, applyFailWhen_success_iff hparsed hreported]
    exact hgate

end Results

/-- A gate fails closed on every key that the step or a child owes it, exactly when no
group is let through. -/
theorem fails_closed_iff (e : Engine) (s : DriveState) (w : Worker) :
    (∀ gate, Unmet e w gate → (gated e s (w.result e s.run.cell)).1.success = false) ↔
      ∀ gate, Unmet e w gate → ¬ LetThrough e s w gate := by
  have hstep := result_step e s.run.cell w
  refine forall₂_congr fun gate hunmet => ?_
  obtain ⟨hauthored, hparsed, hclosed, key, hreads, hdeclares, hproduces⟩ := hunmet
  rw [← Bool.not_eq_true, not_iff_not,
    gated_success_iff (hstep.symm ▸ hauthored) (hstep.symm ▸ hparsed), hstep, failClosedKeys,
    if_neg hclosed]
  by_cases hparallel : w.step.type = .parallel
  · have hempty : (w.result e s.run.cell).res.structuredOutput = [] := by
      rw [Worker.result, hparallel]
      exact joinParallel_structured _
    constructor
    · rintro ⟨hlive, hjoined, hmissing, hkeys, heval⟩
      refine ⟨hparallel, hlive, hjoined, ?_, ?_, heval⟩
      · by_contra hstrict
        obtain ⟨hschema, hfail⟩ := not_or.mp hstrict
        simp [applyMissingOutput, hjoined, hempty, hschema, not_not.mp hfail] at hmissing
      · exact (unevaluableGateKeys_group hparallel hjoined gate _).mp hkeys
    · rintro ⟨-, hlive, hjoined, hlenient, hpaid, heval⟩
      refine ⟨hlive, hjoined, ?_, (unevaluableGateKeys_group hparallel hjoined gate _).mpr hpaid,
        heval⟩
      rcases hlenient with hschema | hfail
      · simp [applyMissingOutput, hschema]
      · simp [applyMissingOutput, hfail]
  · refine iff_of_false ?_ fun hlet => hparallel hlet.group
    rintro ⟨-, -, -, hkeys, -⟩
    have hown : key ∈ w.step.memoryWrite := hdeclares.resolve_right fun h => hparallel h.1
    have hmissing : key ∉ (w.result e s.run.cell).res.structuredOutput.map Prod.fst :=
      fun hkey => hproduces (result_produces hkey)
    rw [unevaluableGateKeys, if_neg hparallel, if_neg hparallel, List.filter_eq_nil_iff] at hkeys
    exact hkeys key hreads (by simp [hown, hmissing])

/-- Two reviews of which one has to pass, gated by the verdict of the first. -/
def reviewGroup : StepConfig where
  id := "review"
  type := .parallel
  join := "any"
  failWhen := "memory.qa_verdict == \"rejected\""
  subSteps := [{ id := "qa", memoryWrite := ["qa_verdict"] }, { id := "docs" }]

/-- The first review crashed before it could give a verdict. -/
def crashedReview : Worker where
  step := reviewGroup
  memSnap := []
  units := [⟨{ id := "qa", memoryWrite := ["qa_verdict"] }, .finished {}⟩,
    ⟨{ id := "docs" }, .finished { success := true }⟩]

/-- The group passes although its gate had no verdict to read. -/
theorem crashedReview_passes :
    let s : DriveState := { run := initDAG "wf-1" ⟨"ship", [reviewGroup]⟩ {} [] fun _ => none }
    ∃ gate, Unmet (Expr.engine Expr.textOps 1) crashedReview gate ∧
      (gated (Expr.engine Expr.textOps 1) s
        (crashedReview.result (Expr.engine Expr.textOps 1) s.run.cell)).1.success = true := by
  refine ⟨.cmp { path := ["memory", "qa_verdict"], op := .eq, operand := "rejected" },
    ⟨by decide, ?_, by decide, "qa_verdict", by decide, .inr ⟨rfl, ?_⟩, ?_⟩, by decide +kernel⟩
  · dsimp only [Expr.engine]
    decide +kernel
  · exact ⟨_, List.mem_cons_self, List.mem_cons_self⟩
  · simp [Worker.Produces, crashedReview]

end Apiary.Workflow
