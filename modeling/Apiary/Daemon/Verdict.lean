import Apiary.Daemon.Rounds

/-!
# The state a task ends in

The run that gives the last slot of a task back writes the state the task ends in.  It asks
`HasFailedInstance`, which counts the failed rows of the current generation, and those rows
are of three kinds: the last runs of the workflows that were dispatched, earlier runs of the
same workflows, and the instances of sub-workflows that a run started on the way.

The rows are followed here while the daemon is up; a restart is the subject of
`Apiary.Daemon.Rounds`.
-/

namespace Apiary.Daemon

open Option

variable {r : InstanceRow}

/-! ## The tables -/

/-- Where a top-level run is with the slot it holds. -/
inductive SlotStage where
  | held
  /-- The final row is written. -/
  | closing
  /-- Its decrement left zero. -/
  | last
  | over
  deriving DecidableEq

/-- A row of `workflow_instances`, with how the run behind it ended. -/
structure InstanceRow where
  task : String
  workflow : String
  generation : ℕ
  /-- The instance whose step this one runs. -/
  parent : Option ℕ := none
  state : InstanceState := .running
  /-- Whether the run succeeded, once it is over. -/
  succeeded : Option Bool := none
  stage : SlotStage := .held
  recorded : state = .failed ↔ succeeded = some false := by simp

/-- A row of `internal_tasks`. -/
structure TaskRow where
  outstanding : ℕ := 0
  generation : ℕ := 0
  state : TaskState := .queued

structure TaskTables where
  tasks : String → TaskRow := fun _ => {}
  /-- In the order of insertion. -/
  rows : List InstanceRow := []

def TaskTables.setTask (t : TaskTables) (task : String) (row : TaskRow) : TaskTables :=
  { t with tasks := Function.update t.tasks task row }

def TaskTables.setRow (t : TaskTables) (i : ℕ) (r : InstanceRow) : TaskTables :=
  { t with rows := t.rows.set i r }

/-- The row belongs to the current round of its task. -/
def TaskTables.isCurrent (t : TaskTables) (task : String) (r : InstanceRow) : Bool :=
  r.task = task && r.generation = (t.tasks task).generation

/-- `HasFailedInstance`. -/
def TaskTables.hasFailedInstance (t : TaskTables) (task : String) : Bool :=
  t.rows.any fun r => t.isCurrent task r && r.state = .failed

/-- `CountConsecutiveFailedInstances`, back from the newest row of the workflow. -/
def TaskTables.consecutiveFailed (t : TaskTables) (task workflow : String) : ℕ :=
  ((t.rows.filter fun r => r.task = task && r.workflow = workflow).reverse.takeWhile
    fun r => r.state = .failed).length

/-! ## Steps -/

/-- Which of the two queries at the end of a round the store answers. -/
structure Answers where
  failed : Bool := true
  attempts : Bool := true

/-- `retryPending`; `0` stands for no limit. -/
def TaskTables.retryPending (t : TaskTables) (maxAttempts : ℕ) (r : InstanceRow) (a : Answers) : Bool :=
  maxAttempts ≠ 0 && r.workflow ≠ "" && a.attempts &&
    t.consecutiveFailed r.task r.workflow < maxAttempts

/-- The state that `completeTask` writes for the run of the row.  A query that is not
answered counts as no failure. -/
def TaskTables.finalState (t : TaskTables) (maxAttempts : ℕ) (r : InstanceRow) (a : Answers) :
    TaskState :=
  if r.succeeded = some false || a.failed && t.hasFailedInstance r.task then
    if t.retryPending maxAttempts r a then .blocked .retryBackoff else .failed
  else .done

/-- `IncrementOutstanding`. -/
def TaskTables.dispatch (t : TaskTables) (task : String) (n : ℕ) : TaskTables :=
  let row := t.tasks task
  t.setTask task
    { outstanding := row.outstanding + n
      generation := if row.state.reopenable then row.generation + 1 else row.generation
      state := if row.state.reopenable then .running else row.state }

/-- `CreateWorkflowInstance` stamps the row with the generation of the task. -/
def TaskTables.create (t : TaskTables) (task workflow : String) (parent : Option ℕ) : TaskTables :=
  { t with
    rows := t.rows ++
      [{ task := task, workflow := workflow, generation := (t.tasks task).generation,
         parent := parent }] }

/-- The final row of a run. -/
def InstanceRow.finish (r : InstanceRow) (success : Bool) (stage : SlotStage) : InstanceRow :=
  { r with
    state := if success then .done else .failed
    succeeded := some success
    stage := stage
    recorded := by cases success <;> simp }

def TaskTables.decrement (t : TaskTables) (task : String) : TaskTables :=
  let row := t.tasks task
  t.setTask task { row with outstanding := row.outstanding - 1 }

inductive TaskEvent where
  | dispatch (task : String) (n : ℕ)
  /-- `BumpGeneration`, by a forced restart. -/
  | bump (task : String)
  /-- A dispatched or resumed run gets its row. -/
  | start (task workflow : String)
  /-- A step of the instance `i` runs a sub-workflow. -/
  | call (i : ℕ) (workflow : String)
  | return (i : ℕ) (success : Bool)
  | park (i : ℕ) (reason : BlockedReason)
  | wake (i : ℕ)
  /-- The slot is given back without a verdict. -/
  | stop (i : ℕ)
  | settle (i : ℕ) (success : Bool)
  | decrement (i : ℕ)
  | conclude (i : ℕ) (answers : Answers)

/-- One step of the instance `i`, if its row is as the step expects it. -/
def TaskTables.move (t : TaskTables) (i : ℕ) (ready : InstanceRow → Bool)
    (go : InstanceRow → TaskTables) : Option TaskTables :=
  t.rows[i]?.bind fun r => if ready r then some (go r) else none

/-- The row of a run that holds its slot. -/
def InstanceRow.isHeld (r : InstanceRow) : Bool := r.parent = none && r.stage = .held

/-- The state of a run that goes on, or that is stopped without an end. -/
def InstanceRow.wait (r : InstanceRow) (state : InstanceState) (stage : SlotStage)
    (hlive : state ≠ .failed) : InstanceRow :=
  { r with state := state, succeeded := none, stage := stage, recorded := by simp [hlive] }

theorem running_live : InstanceState.running ≠ .failed := nofun

theorem blocked_live (reason : BlockedReason) : InstanceState.blocked reason ≠ .failed := nofun

def taskStep (maxAttempts : ℕ) (t : TaskTables) : TaskEvent → Option TaskTables
  | .dispatch task n => if n = 0 then none else some (t.dispatch task n)
  | .bump task =>
    some (t.setTask task { t.tasks task with generation := (t.tasks task).generation + 1 })
  | .start task workflow => some (t.create task workflow none)
  | .call i workflow =>
    t.move i (fun r => r.state = .running) fun r => t.create r.task workflow (some i)
  | .return i success =>
    t.move i (fun r => r.parent.isSome && r.state = .running) fun r =>
      t.setRow i (r.finish success r.stage)
  | .park i reason =>
    t.move i (fun r => r.isHeld && r.state = .running) fun r =>
      t.setRow i (r.wait (.blocked reason) .held (blocked_live reason))
  | .wake i =>
    t.move i (fun r => r.isHeld && r.state.isParked) fun r =>
      t.setRow i (r.wait .running .held running_live)
  | .stop i =>
    t.move i InstanceRow.isHeld fun r =>
      (t.setRow i (r.wait (.blocked .interrupted) .over (blocked_live .interrupted))).decrement r.task
  | .settle i success =>
    t.move i (fun r => r.isHeld && r.state = .running) fun r =>
      t.setRow i (r.finish success .closing)
  | .decrement i =>
    t.move i (fun r => r.parent = none && r.stage = .closing) fun r =>
      let left := (t.tasks r.task).outstanding - 1
      (t.setRow i { r with stage := if left = 0 then .last else .over }).decrement r.task
  | .conclude i answers =>
    t.move i (fun r => r.parent = none && r.stage = .last) fun r =>
      (t.setRow i { r with stage := .over }).setTask r.task
        { t.tasks r.task with state := t.finalState maxAttempts r answers }

/-! ## The verdict -/

/-- The row is a run of the current round, not an instance that a step started. -/
def TaskTables.isRun (t : TaskTables) (task : String) (r : InstanceRow) : Bool :=
  t.isCurrent task r && r.parent = none

/-- The row at `i` is the latest run of its workflow in the round. -/
structure TaskTables.IsLatest (t : TaskTables) (task : String) (i : ℕ) (r : InstanceRow) : Prop where
  row : t.rows[i]? = some r
  run : t.isRun task r = true
  last : ∀ j r', t.rows[j]? = some r' → t.isRun task r' = true → r'.workflow = r.workflow → j ≤ i

/-- The step that ends the round leaves the task done exactly when the latest run of every
workflow of the round succeeded. -/
def TaskTables.EndsRight (t t' : TaskTables) (task : String) : Prop :=
  (t'.tasks task).state = .done ↔ ∀ j r, t.IsLatest task j r → r.succeeded = some true

/-- The row at `j` is a failed one of the current round. -/
def TaskTables.FailedRow (t : TaskTables) (task : String) (j : ℕ) (r : InstanceRow) : Prop :=
  t.rows[j]? = some r ∧ t.isCurrent task r = true ∧ r.state = .failed

section Verdict

variable {t : TaskTables} {task : String} {i : ℕ} {a : Answers}

theorem hasFailedInstance_iff :
    t.hasFailedInstance task = true ↔ ∃ j r, t.FailedRow task j r := by
  rw [TaskTables.hasFailedInstance, List.any_eq_true]
  constructor
  · rintro ⟨r, hr, hfailed⟩
    obtain ⟨j, hj⟩ := List.mem_iff_getElem?.mp hr
    rw [Bool.and_eq_true, decide_eq_true_eq] at hfailed
    exact ⟨j, r, hj, hfailed⟩
  · rintro ⟨j, r, hj, hcurrent, hstate⟩
    exact ⟨r, List.mem_of_getElem? hj, by simp [hcurrent, hstate]⟩

/-- The failure of a run of the round is one of its failed rows. -/
theorem finalState_eq_done_iff (hrow : t.rows[i]? = some r) (hcurrent : t.isCurrent r.task r = true)
    (hanswer : a.failed = true) (maxAttempts : ℕ) :
    t.finalState maxAttempts r a = .done ↔ ¬ ∃ j r', t.FailedRow r.task j r' := by
  have hseen : (r.succeeded = some false || a.failed && t.hasFailedInstance r.task) = true ↔
      ∃ j r', t.FailedRow r.task j r' := by
    rw [hanswer, Bool.true_and, Bool.or_eq_true, decide_eq_true_eq, hasFailedInstance_iff]
    exact or_iff_right_of_imp fun hfailed => ⟨i, r, hrow, hcurrent, r.recorded.mpr hfailed⟩
  rw [← hseen, TaskTables.finalState]
  split
  · rename_i hfailure
    refine iff_of_false ?_ fun hnone => hnone hfailure
    split <;> simp
  · rename_i hfine
    exact iff_of_true rfl hfine

theorem conclude_state {maxAttempts : ℕ} {t' : TaskTables} (hrow : t.rows[i]? = some r)
    (hstep : taskStep maxAttempts t (.conclude i a) = some t') :
    (t'.tasks r.task).state = t.finalState maxAttempts r a := by
  obtain ⟨r', hrow', hgo⟩ := bind_eq_some_iff.mp hstep
  rw [hrow, some.injEq] at hrow'
  subst hrow'
  obtain ⟨-, ⟨⟩⟩ := ite_none_right_eq_some.mp hgo
  simp [TaskTables.setTask]

end Verdict

/-- A latest run that is not over, as one that was stopped, does not show: with no failed row
in the round the task is left done. -/
theorem unfinished_left_done {maxAttempts : ℕ} {t t' : TaskTables} {i j : ℕ}
    {r r' : InstanceRow} {a : Answers} (hrow : t.rows[i]? = some r)
    (hstep : taskStep maxAttempts t (.conclude i a) = some t')
    (hcurrent : t.isCurrent r.task r = true) (hanswer : a.failed = true)
    (hnone : ¬ ∃ j r', t.FailedRow r.task j r')
    (hlatest : t.IsLatest r.task j r') (hopen : r'.succeeded = none) : ¬ t.EndsRight t' r.task := by
  rw [TaskTables.EndsRight, conclude_state hrow hstep,
    finalState_eq_done_iff hrow hcurrent hanswer]
  intro hends
  have hsuccess := hends.mp hnone j r' hlatest
  rw [hopen] at hsuccess
  cases hsuccess

/-! ## A suite that is run twice

The workflow `ship` runs the sub-workflow `qa-suite` in a step that loops back when it
fails. -/

end Apiary.Daemon
