import Apiary.Workflow.FailClosed
import Apiary.Workflow.References

/-!
# Guards and gates of nested steps

Lowering leaves the guard and the gate of a child on the child.  The scheduler evaluates
those of the steps it dispatches, but the children of a group and the items of a foreach
step are run by the worker of the group, which starts them and takes their results as they
come.
-/

namespace Apiary.Workflow

open Config DriveState

/-- The phase of a unit. -/
def DriveState.unitPhase (s : DriveState) (index unit : ℕ) : Option UnitPhase :=
  (s.workers[index]?.bind fun w => w.units[unit]?).map UnitRun.phase

section Units

variable (e : Engine) (s t : DriveState) (index : ℕ) (w : Worker)

/-- A unit starts under its guard and ends under its gate, as a step of the workflow does. -/
def TreatedAsStep : WorkerAct → Prop
  | .start unit => ∀ u, w.units[unit]? = some u → t.history = .started u.step :: s.history →
      conditionHolds e s.run u.step = .ok true
  | .finish unit res => ∀ u row, w.units[unit]? = some u → u.phase = .running row →
      let own := w.unitResult u row res
      t.unitPhase index unit =
        some (.finished (gateResult e s.run { step := u.step, res := own } own).1)
  | _ => True

/-- The gate can be evaluated on a result and does not reject it. -/
def GatePasses (r : DagRun) (step : StepConfig) (res : StepResult) : Prop :=
  ∃ gate, e.parseExpr (stripExprDelimiters step.failWhen) = .ok gate ∧
    failClosedKeys e gate step res [] = [] ∧
    e.eval gate { r.evalContext e with memory := transientMemory e r step res [] } = .ok false

/-- The unit has no guard that could stop it and no gate that could reject its result. -/
def Unaffected : WorkerAct → Prop
  | .start unit => ∀ u, w.units[unit]? = some u → w.unsupported u = true ∨ u.step.condition = "" ∨
        evalExpr e u.step.condition (s.run.evalContext e) = .ok true
  | .finish unit res => ∀ u row, w.units[unit]? = some u → u.phase = .running row →
      let out := (applyMissingOutput u.step (w.unitResult u row res)).1
      out.success = false ∨ u.step.failWhen = "" ∨ GatePasses e s.run u.step out
  | _ => True

end Units

section Steps

variable {e : Engine} {s t : DriveState} {index unit : ℕ} {w : Worker} {u : UnitRun}

theorem setUnit_unitPhase (hw : s.workers[index]? = some w) (hu : w.units[unit]? = some u)
    (phase : UnitPhase) : (s.setUnit index w unit phase).unitPhase index unit = some phase := by
  have hlt := (List.getElem?_eq_some_iff.mp hw).1
  simp [unitPhase, setUnit, Worker.setUnit, List.getElem?_set_self hlt, hu]

theorem conditionHolds_eq_true {r : DagRun} {step : StepConfig} :
    conditionHolds e r step = .ok true ↔
      step.condition = "" ∨ evalExpr e step.condition (r.evalContext e) = .ok true := by
  rw [conditionHolds]
  split <;> simp [*]

/-- A gate leaves a result that passed as it is exactly if it passes it. -/
theorem applyFailWhen_eq_self {r : DagRun} {step : StepConfig} {res : StepResult}
    (hsuccess : res.success = true) :
    (applyFailWhen e r step res []).1 = res ↔ GatePasses e r step res := by
  constructor
  · intro hsame
    have hpassed := hsuccess
    rw [← hsame] at hpassed
    cases hparsed : e.parseExpr (stripExprDelimiters step.failWhen) with
    | error => simp [applyFailWhen, hparsed] at hpassed
    | ok gate => exact ⟨gate, hparsed, (applyFailWhen_success_iff hparsed hsuccess).mp hpassed⟩
  · rintro ⟨gate, hparsed, hkeys, heval⟩
    simp [applyFailWhen, hparsed, hkeys, heval]

end Steps

/-- A unit of a group is treated as a step of the workflow exactly if it has no guard that
could stop it and no gate that could reject its result. -/
theorem nested_treated_as_step_iff (e : Engine) (s : DriveState) (index : ℕ) (act : WorkerAct) :
    (∀ w t, s.workers[index]? = some w → w.isGroup = true → workerStep e s index act = some t →
      TreatedAsStep e s t index w act) ↔
    ∀ w t, s.workers[index]? = some w → w.isGroup = true → workerStep e s index act = some t →
      Unaffected e s w act := by
  refine forall₂_congr fun w t => forall₃_congr fun hw hgroup hstep => ?_
  obtain ⟨w', hw', hstepped⟩ := workerStep_cases hstep
  obtain rfl : w = w' := Option.some.inj (hw.symm.trans hw')
  cases hstepped with
  | spawn | deliver => exact Iff.rfl
  | start unit u hunit =>
    have hone : ∀ P : UnitRun → Prop, (∀ u, w.units[unit]? = some u → P u) ↔ P u := by
      simp [hunit]
    rw [TreatedAsStep, Unaffected, hone, hone, conditionHolds_eq_true]
    cases hkind : w.unsupported u <;> simp [setUnit, startUnit, hkind]
  | finish unit u row res hunit hphase =>
    have hone : ∀ P : UnitRun → ℕ → Prop, (∀ u row, w.units[unit]? = some u →
        u.phase = .running row → P u row) ↔ P u row := by
      refine fun P => ⟨fun h => h u row hunit hphase, fun h u' row' hunit' hphase' => ?_⟩
      obtain rfl := Option.some.inj (hunit.symm.trans hunit')
      exact UnitPhase.running.inj (hphase.symm.trans hphase') ▸ h
    have hworkers : (s.finishUnit w u row res).1.workers = s.workers := by
      obtain ⟨rows, heq⟩ := finishUnit_eq s w u row res
      rw [heq]
    have hfinished : (s.finishUnit w u row res).2 =
        .finished (applyMissingOutput u.step (w.unitResult u row res)).1 := by
      simp [finishUnit, hgroup]
    rw [TreatedAsStep, Unaffected, hone, hone, setUnit_unitPhase (hworkers ▸ hw) hunit, hfinished]
    simp only [Option.some.injEq, UnitPhase.finished.injEq, gateResult]
    generalize (applyMissingOutput u.step (w.unitResult u row res)) = out
    by_cases hgated : out.1.success = true ∧ u.step.failWhen ≠ ""
    · rw [if_pos (by simpa using hgated), eq_comm, applyFailWhen_eq_self hgated.1]
      simp [hgated]
    · rw [if_neg (by simpa using hgated)]
      refine iff_of_true rfl ?_
      rcases not_and_or.mp hgated with hfailed | hnone
      · exact .inl (Bool.eq_false_iff.mpr hfailed)
      · exact .inr (.inl (not_not.mp hnone))

/-- A review of documentation that the item does not need, next to the one of the code. -/
def reviews : AuthoredWorkflow where
  id := "reviews"
  steps :=
    [{ id := "review"
       parallelSteps :=
        [{ id := "docs", ifExpr := "cell.type == 'docs'", output := some ["verdict"]
           rejectWhen := "docs.verdict == 'rejected'" },
          { id := "code" }] }]

/-- The first child runs. -/
def firstChild : List Event :=
  List.replicate 2 (.sched 0) ++ [.worker 0 (.start 0), .worker 0 (.finish 0 (verdict "rejected"))]

/-- The child runs although its guard is false, and passes with what its gate rejects. -/
theorem guarded_child_runs : ∃ out o child res, lowerAndRun reviews firstChild = some (out, o) ∧
      o.drive.workers.flatMap Worker.childResults = [(child, res)] ∧
      o.drive.rows.map (fun row => (row.stepID, row.state)) = [("docs", .done)] ∧
      (conditionHolds (Expr.engine Expr.textOps 1) o.drive.run child).toOption = some false ∧
      res.success = true ∧
      (gateResult (Expr.engine Expr.textOps 1) o.drive.run { step := child, res := res }
        res).1.success = false := by
  refine ⟨_, _, _, _, (Option.some_get (by decide +kernel)).symm, rfl, by decide +kernel,
    by decide +kernel, by decide +kernel, by decide +kernel⟩

end Apiary.Workflow
