import Apiary.Core.Machine
import Apiary.Daemon.Resume

/-!
# Starts of instances

The paths on which the daemon starts an instance of a workflow for a task: a poll, which
runs its matches itself or hands them to the queue, the delivery and redelivery of a job,
a resume request, and the pass of a starting daemon.  Each path makes its own checks and
inserts the row of the instance later, on a goroutine of its own, so that other paths can
check in between.

A poll reads its guards, and a redelivery its two, in one step here: between the reads
nothing can claim a pair, and a start that is refused has no effect.
-/

namespace Apiary.Daemon

open Config (ResumePolicy)

/-! ## State -/

/-- `HasActiveInstanceForRoute` counts these states. -/
def InstanceState.isActive (s : InstanceState) : Bool := s = .running || s.isParked

def hasActiveInstanceForRoute (rows : List WorkflowInstance) (key : RouteKey) : Bool :=
  rows.any fun inst => inst.key = key && inst.state.isActive

def hasCompletedInstanceForRoute (rows : List WorkflowInstance) (key : RouteKey) : Bool :=
  rows.any fun inst => inst.key = key && inst.state = .done

/-- The workflows the router finds for a task; it considers each route once. -/
structure Matches where
  task : String
  workflows : List String
  nodup : workflows.Nodup

def Matches.keys (m : Matches) : List RouteKey := m.workflows.map fun workflow => (m.task, workflow)

structure QueuedJob where
  key : RouteKey
  generation : ℕ
  attempts : ℕ := 0
  isOpen : Bool := true

/-- Where a goroutine is on its way to an instance and through its run. -/
inductive Thread where
  /-- The poll has marked the cell and not yet applied its guards. -/
  | routing (cell : String) (found : Matches)
  /-- An inline dispatch past the guards. -/
  | dispatching (cell : String) (key : RouteKey)
  /-- A delivery past the guards. -/
  | executing (key : RouteKey)
  /-- An accepted resume of the instance `source`. -/
  | resuming (source : ℕ) (key : RouteKey) (auto : Bool)
  /-- The run of the row at `row`, with the cell and the claim it keeps until it returns. -/
  | driving (row : ℕ) (cell : Option String) (claim : Option RouteKey)

/-- The cell stays marked while the thread lives. -/
def Thread.marks (cell : String) : Thread → Bool
  | .routing c _ => c = cell
  | .dispatching c _ => c = cell
  | .driving _ c _ => c = some cell
  | _ => false

structure Dispatcher where
  rows : List WorkflowInstance := []
  jobs : List QueuedJob := []
  threads : List Thread := []
  inFlight : List String := []
  autoResuming : List RouteKey := []
  generation : String → ℕ := fun _ => 0
  /-- The startup passes are over; polls and workers run. -/
  serving : Bool := false
  /-- Dispatches go through the queue. -/
  queued : Bool := false
  policy : String → Option ResumePolicy := fun _ => none

namespace Dispatcher

variable (s : Dispatcher)

local instance : LawfulBEq RouteKey := inferInstance

/-! ## Polls -/

/-- What `dropAutoResumingMatches` and `dropActiveMatches` leave of the matches; `dropped`
are those that `once` or the failure cap removes. -/
def surviving (dropped keys : List RouteKey) : List RouteKey :=
  keys.filter fun key =>
    key ∉ s.autoResuming && !hasActiveInstanceForRoute s.rows key && key ∉ dropped

/-- `Enqueue` under the key of the current dispatch generation. -/
def enqueue (key : RouteKey) : Dispatcher :=
  if s.jobs.any fun job => job.key = key && job.generation = s.generation key.1 then s
  else { s with jobs := s.jobs ++ [{ key := key, generation := s.generation key.1 }] }

/-- `fanOut` of the poll at `i`.  Inline dispatches keep the cell marked. -/
def fanOut (i : ℕ) (cell : String) (keys : List RouteKey) : Dispatcher :=
  if s.queued then
    keys.foldl enqueue
      { s with threads := s.threads.eraseIdx i, inFlight := s.inFlight.erase cell }
  else { s with threads := s.threads.eraseIdx i ++ keys.map (Thread.dispatching cell) }

/-! ## Deliveries -/

/-- Whether `ExecuteQueuedJob` runs the job: a first delivery is checked for completion only
when the trigger is `once`, a redelivery always, and for a live run as well. -/
def startsJob (job : QueuedJob) (once : Bool) : Bool :=
  let again := decide (0 < job.attempts)
  !((again || once) && hasCompletedInstanceForRoute s.rows job.key) &&
    !(again && (job.key ∈ s.autoResuming || hasActiveInstanceForRoute s.rows job.key))

def deliver (j : ℕ) (job : QueuedJob) (once : Bool) : Dispatcher :=
  if s.startsJob job once then
    { s with
      jobs := s.jobs.set j { job with attempts := job.attempts + 1 }
      threads := s.threads ++ [.executing job.key] }
  else { s with jobs := s.jobs.set j { job with attempts := job.attempts + 1, isOpen := false } }

/-! ## Instances -/

/-- The thread at `i` inserts the row of its instance and enters the run. -/
def create (i now : ℕ) (key : RouteKey) (source : Option ℕ) (cell : Option String)
    (claim : Option RouteKey) : Dispatcher :=
  { s with
    rows := s.rows ++
      [{ id := s.rows.length, task := key.1, workflow := key.2, state := .running,
         resumedFrom := source, createdAt := now }]
    threads := s.threads.set i (.driving s.rows.length cell claim) }

def setState (row : ℕ) (inst : WorkflowInstance) (st : InstanceState) : Dispatcher :=
  { s with rows := s.rows.set row { inst with state := st } }

/-- `runChildInstance`, on the goroutine of the parent. -/
def createChild (parent : WorkflowInstance) (workflow : String) (now : ℕ) : Dispatcher :=
  { s with
    rows := s.rows ++
      [{ id := s.rows.length, task := parent.task, workflow := workflow, state := .running,
         parent := some parent.id, createdAt := now }] }

/-! ## Restarts -/

/-- The process dies with its goroutines and guards, and the next one interrupts the rows
that are still running. -/
def restart (queued : Bool) (policy : String → Option ResumePolicy) : Dispatcher :=
  { s with
    rows := s.rows.map fun inst =>
      if inst.state = .running then { inst with state := .blocked .interrupted } else inst
    threads := []
    inFlight := []
    autoResuming := []
    serving := false
    queued := queued
    policy := policy }

/-- The instances the startup pass continues. -/
def resumes (tasks : String → Option TaskState) : List WorkflowInstance :=
  Startup.resumeAutoInterrupted { policy := s.policy, tasks := tasks, rows := s.rows }

/-- The pass claims the pairs before it starts the resumes; polls and workers begin after it. -/
def startup (tasks : String → Option TaskState) : Dispatcher :=
  { s with
    threads := s.threads ++
      (s.resumes tasks).map fun inst => Thread.resuming inst.id inst.key true
    autoResuming := (s.resumes tasks).map WorkflowInstance.key
    serving := true }

end Dispatcher

/-! ## The machine -/

inductive DispatchEvent where
  | poll (cell : String) (found : Matches)
  | route (i : ℕ) (dropped : List RouteKey)
  | release (cell : String)
  | deliver (j : ℕ) (once : Bool)
  | closeJob (j : ℕ)
  | newRound (task : String)
  | resume (row : ℕ) (policy : Option ResumePolicy)
  | create (i now : ℕ)
  | returned (i : ℕ)
  | createChild (row : ℕ) (workflow : String) (now : ℕ)
  | park (row : ℕ) (reason : BlockedReason)
  | wake (row : ℕ)
  | finish (row : ℕ) (state : InstanceState)
  | restart (queued : Bool) (policy : String → Option ResumePolicy)
  | startup (tasks : String → Option TaskState)

def Dispatcher.step (s : Dispatcher) : DispatchEvent → Option Dispatcher
  | .poll cell found =>
    if s.serving && cell ∉ s.inFlight then
      some { s with
        inFlight := cell :: s.inFlight
        threads := s.threads ++ [.routing cell found] }
    else none
  | .route i dropped =>
    match s.threads[i]? with
    | some (.routing cell found) => some (s.fanOut i cell (s.surviving dropped found.keys))
    | _ => none
  | .release cell =>
    if s.threads.any (Thread.marks cell) then none
    else some { s with inFlight := s.inFlight.erase cell }
  | .deliver j once =>
    s.jobs[j]?.bind fun job =>
      if s.serving && job.isOpen then some (s.deliver j job once) else none
  | .closeJob j =>
    s.jobs[j]?.map fun job => { s with jobs := s.jobs.set j { job with isOpen := false } }
  | .newRound task =>
    some { s with generation := Function.update s.generation task (s.generation task + 1) }
  | .resume row policy =>
    s.rows[row]?.bind fun inst =>
      if startResume policy inst then
        some { s with threads := s.threads ++ [.resuming inst.id inst.key false] }
      else none
  | .create i now =>
    match s.threads[i]? with
    | some (.dispatching cell key) => some (s.create i now key none (some cell) none)
    | some (.executing key) => some (s.create i now key none none none)
    | some (.resuming source key auto) =>
      some (s.create i now key (some source) none (if auto then some key else none))
    | _ => none
  | .returned i =>
    match s.threads[i]? with
    | some (.driving row _ claim) =>
      if s.rows[row]?.any fun inst => inst.state = .running then none
      else some { s with
        threads := s.threads.eraseIdx i
        autoResuming := s.autoResuming.filter fun key => some key ≠ claim }
    | _ => none
  | .createChild row workflow now =>
    s.rows[row]?.bind fun inst =>
      if inst.state = .running then some (s.createChild inst workflow now) else none
  | .park row reason =>
    s.rows[row]?.bind fun inst =>
      if inst.state = .running && reason ≠ .interrupted then
        some (s.setState row inst (.blocked reason))
      else none
  | .wake row =>
    s.rows[row]?.bind fun inst =>
      if inst.state.isParked then
        some { s.setState row inst .running with
          threads := s.threads ++ [.driving row none none] }
      else none
  | .finish row state =>
    s.rows[row]?.bind fun inst =>
      if inst.state.isActive && (state.isTerminal || state = .blocked .interrupted) then
        some (s.setState row inst state)
      else none
  | .restart queued policy => some (s.restart queued policy)
  | .startup tasks => if s.serving then none else some (s.startup tasks)

end Apiary.Daemon
