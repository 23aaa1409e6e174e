import Apiary.Core.Machine
import Apiary.Daemon.Instance

/-!
# Rounds of a task

A task counts the workflows that are dispatched and have not settled.  Each settle gives
its slot back, and the one that leaves zero writes the state of the task and fires the
completion hook.  A dispatch that finds the task settled opens a new generation, its next
round.

Slots are given back elsewhere too, without the hook: by a dispatch that is rolled back
and by a stop.  A run on its first drive settles under the context of its job: once the job
is canceled or its lease is lost, nothing more that the settle does takes effect.  A starting
daemon recounts the slots from the instance rows, and a job that waits in the queue has no
row yet.
-/

namespace Apiary.Daemon

/-! ## The task and its workflows -/

inductive TaskState where
  | queued
  | running
  | blocked (reason : BlockedReason)
  | done
  | failed
  | canceled
  deriving DecidableEq

def TaskState.isTerminal : TaskState → Bool
  | .done => true
  | .failed => true
  | .canceled => true
  | _ => false

/-- `taskReopenable`. -/
def TaskState.reopenable (s : TaskState) : Bool := s.isTerminal || s = .blocked .retryBackoff

/-- Where a dispatched workflow is. -/
inductive FlightStage where
  | counted
  | rolledBack
  /-- A job in the queue, without an instance row. -/
  | waiting
  | running
  | parked
  /-- The final row is written, the slot not given back. -/
  | closing
  /-- Its decrement left zero. -/
  | last
  /-- The state of the task is written, the hook not fired. -/
  | hooking
  | settled
  | stopped
  /-- The job ended without a run. -/
  | dropped
  /-- The context of its job was canceled before the final row was written. -/
  | abandoned
  /-- The row was interrupted by a restart; the job may be delivered again. -/
  | interrupted
  /-- Counted, but the process died before the job was enqueued. -/
  | lost
  deriving DecidableEq

structure Flight where
  round : ℕ
  stage : FlightStage := .counted
  failed : Bool := false
  /-- The run has left a park, so a stop finds it in the engine. -/
  resumed : Bool := false

structure Account where
  outstanding : ℕ := 0
  generation : ℕ := 0
  state : TaskState := .queued
  flights : List Flight := []
  /-- The rounds for which the completion hook fired. -/
  hooks : List ℕ := []

/-! ## Steps of a live daemon -/

def Account.set (s : Account) (i : ℕ) (f : Flight) (stage : FlightStage) : Account :=
  { s with flights := s.flights.set i { f with stage := stage } }

/-- `DecrementOutstanding`, clamped at zero. -/
def Account.decrement (s : Account) : Account := { s with outstanding := s.outstanding - 1 }

/-- `IncrementOutstanding`, before the matches are enqueued. -/
def Account.dispatch (s : Account) (n : ℕ) : Account :=
  let round := if s.state.reopenable then s.generation + 1 else s.generation
  { s with
    outstanding := s.outstanding + n
    generation := round
    state := if s.state.reopenable then .running else s.state
    flights := s.flights ++ List.replicate n { round := round } }

/-- `HasFailedInstance`. -/
def Account.hasFailed (s : Account) : Bool :=
  s.flights.any fun f => f.round = s.generation && f.failed

/-- The end of a round, as `completeTask` labels it. -/
def Account.finalState (s : Account) (failed retry : Bool) : TaskState :=
  if failed || s.hasFailed then (if retry then .blocked .retryBackoff else .failed) else .done

/-- One step of the workflow at `i`, from the stage it has to be in. -/
def Account.move (s : Account) (i : ℕ) (stage : FlightStage) (go : Flight → Account) :
    Option Account :=
  s.flights[i]?.bind fun f => if f.stage = stage then some (go f) else none

/-- `StopParked`, or the refusal of a claim: the slot is given back without the hook.  A
run on its first drive is left alone. -/
def Account.stop (s : Account) (i : ℕ) : Option Account :=
  s.flights[i]?.bind fun f =>
    if f.stage = .parked || (f.stage = .running && f.resumed) then
      some (s.set i f .stopped).decrement
    else none

/-- What a workflow comes to whose context is canceled: the writes that are still to come
fail, and the hook is not applied. -/
def FlightStage.aborted : FlightStage → Option FlightStage
  | .running => some .abandoned
  | .closing => some .settled
  | .last => some .settled
  | .hooking => some .settled
  | _ => none

/-- The heartbeat of a job cancels its context when the job was canceled or its lease is lost.
A run that has parked is driven under the context of the daemon from then on. -/
def Account.abort (s : Account) (i : ℕ) : Option Account :=
  s.flights[i]?.bind fun f =>
    if f.resumed then none else f.stage.aborted.map fun stage => s.set i f stage

/-! ## A restart -/

/-- What is left of a workflow when the process dies. -/
def FlightStage.crashed : FlightStage → FlightStage
  | .counted => .lost
  | .running => .interrupted
  | .abandoned => .interrupted
  | .closing => .settled
  | .last => .settled
  | .hooking => .settled
  | stage => stage

/-- `settleJobAccounting`, for a job that ended without an instance. -/
def Account.settleJob (s : Account) (failed : Bool) : Account :=
  { s with
    outstanding := s.outstanding - 1
    state := if s.outstanding - 1 = 0 then s.finalState failed false else s.state }

/-- `reconcileTerminalQueueJobs`. -/
def Account.settleJobs (s : Account) : Account :=
  { (s.flights.filter fun f => f.stage = .dropped).foldl (fun s f => s.settleJob f.failed) s with
    flights := s.flights.map fun f => if f.stage = .dropped then { f with stage := .settled } else f }

/-- The first pass of `ReconcileOrphanTaskCounters`: after a crash only parks are live
rows. -/
def Account.recount (s : Account) : Account :=
  if s.state.isTerminal then s
  else { s with outstanding := s.flights.countP fun f => f.stage = .parked }

/-- Its second pass settles a stranded task. -/
def Account.settleStranded (s : Account) : Account :=
  if s.state = .running && s.outstanding = 0 &&
      s.flights.any (fun f => f.round = s.generation && f.stage = .settled) then
    { s with state := if s.hasFailed then .failed else .done }
  else s

/-- `PropagateInterruptedToTasks`. -/
def Account.propagateInterrupted (s : Account) : Account :=
  if !s.state.isTerminal && s.state ≠ .running && s.outstanding = 0 &&
      s.flights.any (fun f => f.stage = .stopped || f.stage = .interrupted) &&
      s.flights.all (fun f => f.stage ≠ .parked) then
    { s with state := .blocked .interrupted }
  else s

def Account.crash (s : Account) : Account :=
  { s with flights := s.flights.map fun f => { f with stage := f.stage.crashed } }

def Account.restart (s : Account) : Account :=
  s.crash.settleJobs.recount.settleStranded.propagateInterrupted

inductive RoundEvent where
  | dispatch (n : ℕ)
  | enqueue (i : ℕ) (created : Bool)
  | start (i : ℕ)
  /-- The delivery is skipped, or cannot be decoded or started. -/
  | skip (i : ℕ)
  | park (i : ℕ)
  | wake (i : ℕ)
  | finish (i : ℕ) (failed : Bool)
  | decrement (i : ℕ)
  | conclude (i : ℕ) (retry : Bool)
  | hook (i : ℕ)
  | stop (i : ℕ)
  | abort (i : ℕ)
  | redeliver (i : ℕ)
  | restart

def roundStep (s : Account) : RoundEvent → Option Account
  | .dispatch n => if n = 0 then none else some (s.dispatch n)
  | .enqueue i created =>
    s.move i .counted fun f =>
      if created then s.set i f .waiting else (s.set i f .rolledBack).decrement
  | .start i => s.move i .waiting fun f => s.set i f .running
  | .skip i => s.move i .waiting fun f => s.set i f .dropped
  | .park i => s.move i .running fun f => s.set i f .parked
  | .wake i => s.move i .parked fun f => s.set i { f with resumed := true } .running
  | .finish i failed =>
    s.move i .running fun f => s.set i { f with failed := f.failed || failed } .closing
  | .decrement i =>
    s.move i .closing fun f =>
      (s.set i f (if s.outstanding - 1 = 0 then .last else .settled)).decrement
  | .conclude i retry =>
    s.move i .last fun f => { s.set i f .hooking with state := s.finalState f.failed retry }
  | .hook i => s.move i .hooking fun f => { s.set i f .settled with hooks := f.round :: s.hooks }
  | .stop i => s.stop i
  | .abort i => s.abort i
  | .redeliver i =>
    s.flights[i]?.bind fun f =>
      if f.stage = .interrupted || f.stage = .abandoned then
        some (s.set i { f with resumed := false } .running)
      else none
  | .restart => some s.restart

/-! ## One hook for each round -/

/-- The workflow has still something to do. -/
def FlightStage.isOpen : FlightStage → Bool
  | .counted => true
  | .waiting => true
  | .running => true
  | .parked => true
  | .closing => true
  | .last => true
  | .hooking => true
  | .interrupted => true
  | _ => false

/-- The workflow was really dispatched. -/
def FlightStage.dispatched : FlightStage → Bool
  | .counted => false
  | .rolledBack => false
  | .lost => false
  | _ => true

end Apiary.Daemon
