import Apiary.Core.Machine
import Apiary.Core.Table
import Mathlib.Algebra.BigOperators.Group.List.Basic
import Mathlib.Algebra.Order.Ring.Rat
import Mathlib.Tactic.Ring

/-!
# The costs of step runs and of executions

A step run is written with the costs that its executions reported.  A back-fill gives one
execution its cost and then writes the sum over all executions of the step to every step run
of the step, which is the sum of that one step run only when the step ran once.
-/

namespace Apiary.Daemon

open List Machine Option

/-- `summed` is what the executions of the running step run have reported so far. -/
structure StepRunCost where
  step : String
  cost : ℚ := 0
  running : Bool := true
  summed : ℚ := 0

structure ExecutionCost where
  step : String
  cost : ℚ

/-- The step runs of an instance, and the executions linked to its steps. -/
structure InstanceCosts where
  rows : List StepRunCost := []
  executions : List ExecutionCost := []

inductive CostEvent where
  | begin (step : String)
  | cached (step : String) (cost : ℚ)
  | attempt (row : ℕ) (cost : ℚ) (recorded : Bool)
  | finish (row : ℕ) (written : Bool)
  | backfill (execution : ℕ) (cost : ℚ) (refreshed : Bool)

/-- `SELECT SUM(cost)` over the entries whose step meets `p`. -/
def sumWhere {α : Type} (p : String → Bool) (entries : List α) (step : α → String) (cost : α → ℚ) :
    ℚ :=
  ((entries.filter fun a => p (step a)).map cost).sum

namespace InstanceCosts

variable (s : InstanceCosts)

def executionSum (p : String → Bool) : ℚ :=
  sumWhere p s.executions ExecutionCost.step ExecutionCost.cost

def setExecutionCost (i : ℕ) (e : ExecutionCost) (cost : ℚ) : InstanceCosts :=
  { s with executions := s.executions.set i { e with cost := cost } }

def refreshStepRunCost (step : String) : InstanceCosts :=
  let total := s.executionSum (· = step)
  { s with rows :=
    Table.update (fun r => r.step = step) (fun r => { r with cost := total }) s.rows }

/-- A resumed instance begins with copies of step runs, costs included.  The writes of a step
run and of its executions can fail without an error. -/
def step : CostEvent → Option InstanceCosts
  | .begin step => some { s with rows := s.rows ++ [{ step := step }] }
  | .cached step cost =>
    some { s with rows := s.rows ++ [{ step := step, cost := cost, running := false }] }
  | .attempt i cost recorded => s.rows[i]?.bind fun r =>
    if r.running then
      some { rows := s.rows.set i { r with summed := r.summed + cost }
             executions := s.executions ++ (if recorded then [⟨r.step, cost⟩] else []) }
    else none
  | .finish i written => s.rows[i]?.bind fun r =>
    if r.running then
      let row := { r with running := false, cost := if written then r.summed else r.cost }
      some { s with rows := s.rows.set i row }
    else none
  | .backfill i cost refreshed => s.executions[i]?.bind fun e =>
    if e.cost = 0 then
      some (if refreshed then (s.setExecutionCost i e cost).refreshStepRunCost e.step
        else s.setExecutionCost i e cost)
    else none

/-- Every write succeeds, copied step runs cost nothing, and a cost is filled in only where the
step has one step run, which is over. -/
def singleRuns : CostEvent → Bool
  | .begin _ => true
  | .cached _ cost => cost = 0
  | .attempt _ cost recorded => recorded || cost = 0
  | .finish i written => written || s.rows[i]?.all fun r => r.cost = r.summed
  | .backfill i _ refreshed => refreshed && s.executions[i]?.all fun e =>
    match s.rows.filter fun r => r.step = e.step with
    | [r] => !r.running
    | _ => false

/-- Once no step runs, the step runs cost what the executions cost. -/
def Balanced : Prop :=
  (∀ r ∈ s.rows, r.running = false) →
    (s.rows.map StepRunCost.cost).sum = s.executionSum fun _ => true
  deriving Decidable

end InstanceCosts

section Sums

variable {α : Type} {p : String → Bool} {entries : List α} {step : α → String} {cost : α → ℚ}

theorem sumWhere_append (entries' : List α) : sumWhere p (entries ++ entries') step cost =
    sumWhere p entries step cost + sumWhere p entries' step cost := by
  simp [sumWhere]

theorem sumWhere_cons (a : α) : sumWhere p (a :: entries) step cost =
    (if p (step a) then cost a else 0) + sumWhere p entries step cost := by
  rw [sumWhere, filter_cons]
  split <;> simp [sumWhere]

@[simp]
theorem sumWhere_concat (a : α) : sumWhere p (entries ++ [a]) step cost =
    sumWhere p entries step cost + if p (step a) then cost a else 0 := by
  rw [sumWhere_append, sumWhere_cons]
  exact congrArg _ (add_zero _)

theorem sumWhere_replace (before after : List α) (a b : α) (hstep : step b = step a) :
    sumWhere p (before ++ b :: after) step cost = sumWhere p (before ++ a :: after) step cost +
      if p (step a) then cost b - cost a else 0 := by
  simp only [sumWhere_append, sumWhere_cons, hstep]
  split <;> ring

theorem sumWhere_set {i : ℕ} {a : α} (hat : entries[i]? = some a) (b : α)
    (hstep : step b = step a) : sumWhere p (entries.set i b) step cost =
      sumWhere p entries step cost + if p (step a) then cost b - cost a else 0 := by
  obtain ⟨hlt, rfl⟩ := List.getElem?_eq_some_iff.mp hat
  have hsplit : entries.take i ++ entries[i] :: entries.drop (i + 1) = entries := by simp
  rw [set_eq_take_append_cons_drop, if_pos hlt, sumWhere_replace _ _ _ b hstep, hsplit]

end Sums

/-- What the step run costs once it is over. -/
def StepRunCost.own (r : StepRunCost) : ℚ := if r.running then r.summed else r.cost

def InstanceCosts.rowSum (s : InstanceCosts) (p : String → Bool) : ℚ :=
  sumWhere p s.rows StepRunCost.step StepRunCost.own

variable {s t : InstanceCosts} {p : String → Bool}

/-- The sum of the step's executions is written to the one step run of the step. -/
theorem rowSum_refresh {r : StepRunCost} {step : String}
    (hone : (s.rows.filter fun r => r.step = step) = [r]) (hover : r.running = false) :
    (s.refreshStepRunCost step).rowSum p =
      s.rowSum p + if p step then s.executionSum (· = step) - r.own else 0 := by
  obtain ⟨before, after, hrows, hbefore, hr, hafter⟩ := filter_eq_cons_iff.mp hone
  have hnone : ∀ rows : List StepRunCost, (∀ x ∈ rows, ¬ decide (x.step = step) = true) →
      Table.update (fun r => decide (r.step = step))
        (fun r => { r with cost := s.executionSum (· = step) }) rows = rows :=
    fun rows h => Table.update_eq_self fun x hx => by simpa using h x hx
  obtain rfl : r.step = step := of_decide_eq_true hr
  rw [InstanceCosts.rowSum, InstanceCosts.refreshStepRunCost, hrows, Table.update, map_append,
    map_cons, ← Table.update, ← Table.update, hnone before hbefore,
    hnone after (filter_eq_nil_iff.mp hafter), if_pos hr, InstanceCosts.rowSum, hrows]
  refine (sumWhere_replace before after r
    { r with cost := s.executionSum (· = r.step) } rfl).trans ?_
  simp [StepRunCost.own, hover]

/-- Whatever steps are looked at, their step runs cost what their executions cost. -/
def Conserved (s : InstanceCosts) : Prop := ∀ p, s.rowSum p = s.executionSum p

/-- A new step run that costs nothing. -/
theorem Conserved.concat (hs : Conserved s) {r : StepRunCost} (hr : r.own = 0) :
    Conserved { s with rows := s.rows ++ [r] } := by
  intro p
  rw [InstanceCosts.rowSum, sumWhere_concat, hr, ite_self, add_zero]
  exact hs p

theorem Conserved.set (hs : Conserved s) {i : ℕ} {r r' : StepRunCost} {more : List ExecutionCost}
    (hat : s.rows[i]? = some r) (hstep : r'.step = r.step)
    (hmore : ∀ p, sumWhere p more ExecutionCost.step ExecutionCost.cost =
      if p r.step then r'.own - r.own else 0) :
    Conserved { rows := s.rows.set i r', executions := s.executions ++ more } := by
  intro p
  rw [InstanceCosts.rowSum, sumWhere_set hat r' hstep, InstanceCosts.executionSum,
    sumWhere_append, hmore]
  exact congrArg (· + _) (hs p)

theorem Conserved.backfill (hs : Conserved s) {i : ℕ} {e : ExecutionCost} {cost : ℚ}
    (hat : s.executions[i]? = some e) (hzero : e.cost = 0)
    (hguard : s.singleRuns (.backfill i cost true) = true) :
    Conserved ((s.setExecutionCost i e cost).refreshStepRunCost e.step) := by
  simp only [InstanceCosts.singleRuns, hat, all_some, Bool.true_and] at hguard
  split at hguard
  · rename_i r hone
    have hset : ∀ p, (s.setExecutionCost i e cost).executionSum p =
        s.executionSum p + if p e.step then cost else 0 := by
      intro p
      have hsum : (s.setExecutionCost i e cost).executionSum p = _ :=
        sumWhere_set hat { e with cost := cost } rfl
      rwa [hzero, sub_zero] at hsum
    have hown : r.own = s.executionSum (· = e.step) := by
      rw [← hs, InstanceCosts.rowSum, sumWhere, hone]
      simp
    intro p
    change _ = (s.setExecutionCost i e cost).executionSum p
    have hrows : (s.setExecutionCost i e cost).rowSum p = s.executionSum p := hs p
    have hone' : ((s.setExecutionCost i e cost).rows.filter fun r => r.step = e.step) = [r] := hone
    rw [rowSum_refresh hone' (by simpa using hguard), hrows, hset, hset, hown]
    simp
  · cases hguard

theorem Conserved.step {ev : CostEvent} (hs : Conserved s) (hguard : s.singleRuns ev = true)
    (hstep : s.step ev = some t) : Conserved t := by
  cases ev with
  | begin => exact some.inj hstep ▸ hs.concat rfl
  | cached step cost =>
    exact some.inj hstep ▸ hs.concat (of_decide_eq_true hguard : cost = 0)
  | attempt i cost recorded =>
    obtain ⟨r, hat, hstep⟩ := bind_eq_some_iff.mp hstep
    obtain ⟨hrunning, hstep⟩ := ite_none_right_eq_some.mp hstep
    refine some.inj hstep ▸ hs.set hat rfl fun p => ?_
    cases recorded with
    | true =>
      rw [if_pos rfl, sumWhere_cons]
      simp [StepRunCost.own, hrunning, sumWhere]
    | false =>
      obtain rfl : cost = 0 := of_decide_eq_true hguard
      simp [StepRunCost.own, hrunning, sumWhere]
  | finish i written =>
    obtain ⟨r, hat, hstep⟩ := bind_eq_some_iff.mp hstep
    obtain ⟨hrunning, hstep⟩ := ite_none_right_eq_some.mp hstep
    have hcost : (if written then r.summed else r.cost) = r.summed := by
      cases written with
      | true => rfl
      | false => simpa [InstanceCosts.singleRuns, hat] using hguard
    cases hstep
    rw [← append_nil s.executions]
    exact hs.set hat rfl fun p => by simp [StepRunCost.own, hrunning, hcost, sumWhere]
  | backfill i cost refreshed =>
    obtain ⟨e, hat, hstep⟩ := bind_eq_some_iff.mp hstep
    split at hstep
    · cases refreshed with
      | true => exact some.inj hstep ▸ hs.backfill hat ‹_› hguard
      | false => cases hguard
    · cases hstep

/-- In every run in which costs are filled in only for steps with one step run, which is over,
and no write fails, the step runs cost what the executions cost. -/
theorem costs_balanced_of_singleRuns {es : List CostEvent}
    (hguarded : Guarded InstanceCosts.step (fun s ev => s.singleRuns ev = true) {} es)
    (hrun : exec InstanceCosts.step {} es = some t) : t.Balanced := by
  have hstart : Conserved {} := fun p => rfl
  have ht := exec_invariant (fun _ _ _ hs hguard hstep => Conserved.step hs hguard hstep) hstart
    hguarded hrun
  intro hover
  rw [← ht, InstanceCosts.rowSum, sumWhere, filter_true]
  refine congrArg _ (map_congr_left fun r hr => ?_)
  simp [StepRunCost.own, hover r hr]

/-- The step runs once or twice, each time with one execution that reports no cost, and then
the first execution is given its cost. -/
def implementRuns (loops : ℕ) : List CostEvent :=
  ((List.range loops).flatMap fun i => [.begin "implement", .attempt i 0 true, .finish i true]) ++
    [.backfill 0 3 true]

theorem implement_once_balanced :
    ∃ t, exec InstanceCosts.step {} (implementRuns 1) = some t ∧ t.Balanced := by
  have hrun := exec_get (by decide +kernel :
    (exec InstanceCosts.step {} (implementRuns 1)).isSome = true)
  exact ⟨_, hrun, costs_balanced_of_singleRuns (by decide +kernel) hrun⟩

/-- After a loop back both step runs are given the cost of the one execution. -/
theorem implement_looped_counted_twice : ∃ t,
    exec InstanceCosts.step {} (implementRuns 2) = some t ∧
      t.rows.map StepRunCost.cost = [3, 3] ∧ t.executions.map ExecutionCost.cost = [3, 0] ∧
      ¬ t.Balanced := by
  exact ⟨_, exec_get (by decide +kernel), by decide +kernel, by decide +kernel, by decide +kernel⟩

end Apiary.Daemon
