import Apiary.Queue.Leases

/-!
# The state a job is listed under

The operations name the state they leave a job in by a constant of the queue's interface.
A listing compares the column of the table with such a constant, and a job that is read
back carries the text of the column.  The claim writes a text of its own.
-/

namespace Apiary.Queue

/-- The constants of the interface: `JobQueued`, `JobLeased` and so on. -/
def JobState.text : JobState → String
  | .queued => "queued"
  | .leased => "running"
  | .succeeded => "done"
  | .failed => "failed"
  | .canceled => "canceled"

/-- The text that is in the column.  The end of an attempt writes the constant; a new
job, a claim and a canceled job are written as literals of the statement. -/
def JobState.column : JobState → String
  | .leased => "leased"
  | state => state.text

/-- The state that the operation which changed the job last calls it. -/
def Job.reported (j : Job) : String := j.state.text

/-- The state of a job that `scanJob` reads from its row. -/
def Job.stored (j : Job) : String := j.state.column

def listLimit (limit : ℕ) : ℕ := if limit = 0 then 100 else min limit 1000

/-- `ListJobs`: newest first, and every job for the empty state. -/
def Queue.listJobs (q : Queue) (state : String) (limit : ℕ) : List Job :=
  ((q.jobs.filter fun j => state = "" || j.stored = state).insertionSort
    fun a b => b.createdAt ≤ a.createdAt).take (listLimit limit)

/-- Listing by a state returns the jobs that are reported in it, if they are fewer than
the limit, and a job is read back in the state that was reported. -/
structure Queue.ListsReported (q : Queue) : Prop where
  listed : ∀ (state : JobState) (limit : ℕ),
    (q.jobs.filter fun j => j.stored = state.text).length < listLimit limit →
      (q.listJobs state.text limit).Perm (q.jobs.filter fun j => j.reported = state.text)
  readBack : ∀ j ∈ q.jobs, j.stored = j.reported

theorem text_ne_empty (state : JobState) : state.text ≠ "" := by
  cases state <;> decide

theorem column_eq_text_iff (state : JobState) : state.column = state.text ↔ state ≠ .leased := by
  cases state <;> decide

theorem listJobs_perm (q : Queue) (state : JobState) {limit : ℕ}
    (hfew : (q.jobs.filter fun j => j.stored = state.text).length < listLimit limit) :
    (q.listJobs state.text limit).Perm (q.jobs.filter fun j => j.stored = state.text) := by
  simp only [Queue.listJobs, text_ne_empty, decide_false, Bool.false_or]
  rw [List.take_of_length_le (by rw [List.length_insertionSort]; exact hfew.le)]
  exact List.perm_insertionSort _ _

/-- Jobs are listed and read back as they are reported exactly when none is leased. -/
theorem lists_reported_iff (q : Queue) : q.ListsReported ↔ ∀ j ∈ q.jobs, j.state ≠ .leased := by
  constructor
  · intro hlists j hj
    exact (column_eq_text_iff j.state).mp (hlists.readBack j hj)
  · intro hnone
    have hsame : ∀ j ∈ q.jobs, j.stored = j.reported := by
      intro j hj
      exact (column_eq_text_iff j.state).mpr (hnone j hj)
    refine ⟨fun state limit hfew => ?_, hsame⟩
    have hfilter : q.jobs.filter (fun j => j.stored = state.text) =
        q.jobs.filter fun j => j.reported = state.text := by
      apply List.filter_congr
      intro j hj
      rw [hsame j hj]
    rw [← hfilter]
    exact listJobs_perm q state hfew

/-- A job that a worker has claimed is not listed among the running ones. -/
theorem claimed_not_listed : ∃ q, Machine.exec queueStep {} buildTwice = some q ∧
    q.listJobs JobState.leased.text 10 = [] ∧ ¬ q.ListsReported := by
  refine ⟨_, Machine.exec_get (by decide +kernel), by decide +kernel, fun hlists => ?_⟩
  exact absurd hlists.readBack (by decide +kernel)

end Apiary.Queue
