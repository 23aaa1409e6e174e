import Apiary.Daemon.Slots
import Apiary.Queue.Store

/-!
# Dispatched work

One piece of work takes one slot in the outstanding count of its task: a match that is
fanned out to the queue, or a PR event that is run at once.  With the embedded worker the
daemon executes the job itself, so the slot is given back by the run that a delivery
starts (`completeTask`, `StopParked`, a refused claim), by the fan-out that could not
enqueue the job, or by the stop that cancels the reservation of a run that has not started.

Nothing else gives it back.  `settleRemoteQueueJob` would, but it is called for remote
workers and by a starting daemon only.
-/

namespace Apiary.Daemon

open Config Workflow Queue

/-! ## The executor -/

def dispatchPayloadVersion : ℕ := 1

/-- `dispatchJobPayload`, as far as the executor reads it. -/
structure Payload where
  version : ℕ := dispatchPayloadVersion
  once : Bool := false
  /-- The match names a reserved instance. -/
  reserved : Bool := false

/-- What the tables say while a job is looked at. -/
structure Readings where
  completed : Except String Bool := .ok false
  /-- `redeliveryConflict`. -/
  conflict : Except String (Option String) := .ok none
  reservation : Except String Unit := .ok ()

def skipReason (once : Bool) : String :=
  if once then "trigger declared once: true and the workflow already completed"
  else "redelivery of an already-completed workflow"

def decode (payload : Except String Payload) : Except FinishResult Payload := do
  let p ← payload.mapError fun err => { error := "decode dispatch payload: " ++ err }
  if p.version ≠ dispatchPayloadVersion then
    throw { error := "unsupported dispatch payload version " ++ toString p.version }
  pure p

/-- The first guard: a run that has completed is not repeated by a redelivery, nor at all
when the trigger fires once. -/
def checkCompleted (p : Payload) (again : Bool) (r : Readings) : Except FinishResult Unit :=
  if again || p.once then
    match r.completed with
    | .error err => throw { error := "check completed workflow: " ++ err, retry := true }
    | .ok true => throw { success := true, note := "skipped: " ++ skipReason p.once }
    | .ok false => pure ()
  else pure ()

/-- The second guard: a redelivery does not run beside a live run. -/
def checkConflict (again : Bool) (r : Readings) : Except FinishResult Unit :=
  if again then
    match r.conflict with
    | .error err => throw { error := err, retry := true }
    | .ok (some reason) => throw { success := true, note := "skipped: " ++ reason }
    | .ok none => pure ()
  else pure ()

/-- Whether the run takes a reservation over; a redelivery finds it used. -/
def useReservation (p : Payload) (reserved : Option InstanceState) (again : Bool) (r : Readings) :
    Except FinishResult Bool :=
  if p.reserved && again then
    match r.reservation with
    | .error err => throw { error := "read reserved instance: " ++ err, retry := true }
    | .ok () => pure (reserved.all fun row => row = .queued || row = .canceled)
  else pure p.reserved

/-- `ExecuteQueuedJob` up to the dispatch: the result that ends the delivery, or whether
the run takes a reservation over. -/
def admission (payload : Except String Payload) (reserved : Option InstanceState) (again : Bool)
    (r : Readings) : Except FinishResult Bool := do
  let p ← decode payload
  checkCompleted p again r
  checkConflict again r
  useReservation p reserved again r

/-! ## One piece of work -/

/-- Where the fan-out is with the match. -/
inductive Stage where
  | counted
  /-- The slot was rolled back; the reservation is still to be abandoned. -/
  | abandoning
  | withdrawn
  | sent
  deriving DecidableEq

/-- Where the goroutine of one attempt is. -/
inductive Delivery where
  | claimed
  | admitted (reserved : Bool)
  | driving (run : ℕ)
  | reporting (result : FinishResult)
  | finished

def Delivery.isFinished : Delivery → Bool
  | .finished => true
  | _ => false

structure Work where
  wf : WorkflowConfig
  cell : SourceItem := {}
  event : String → Option String := fun _ => none
  payload : Except String Payload := .ok {}
  stage : Stage := .counted
  job : Option Job := none
  deliveries : List Delivery := []
  /-- The reserved row. -/
  reserved : Option InstanceState := none
  /-- Stops that found the reservation queued and have not tried to cancel it yet. -/
  readers : ℕ := 0
  /-- Stops that canceled the reservation and have not given its slot back yet. -/
  owed : ℕ := 0
  returned : ℕ := 0
  runs : List StopState := []
  /-- Some delivery was let through to the engine. -/
  admitted : Bool := false

def Work.deliver (w : Work) (index : ℕ) (d : Delivery) : Work :=
  { w with deliveries := w.deliveries.set index d }

/-- The delivery still holds the lease. -/
def Work.holds (w : Work) (index : ℕ) : Bool :=
  w.job.any fun j => j.state = .leased && j.attemptCount = index + 1

/-- `Enqueue` creates the job, or the slot is rolled back. -/
def Work.enqueue (w : Work) (created : Option Job) : Option Work :=
  if w.stage = .counted then
    match created with
    | some j =>
      if j.state = .queued && j.attemptCount = 0 then some { w with stage := .sent, job := some j }
      else none
    | none => some { w with stage := .abandoning, returned := w.returned + 1 }
  else none

/-- `abandonReservation`. -/
def Work.abandon (w : Work) : Option Work :=
  if w.stage = .abandoning then
    some { w with
      stage := .withdrawn
      reserved := w.reserved.map fun row => if row = .queued then .canceled else row }
  else none

def Work.claim (w : Work) : Option Work :=
  w.job.bind fun j =>
    if j.state = .queued then
      some { w with
        job := some { j with state := .leased, attemptCount := j.attemptCount + 1 }
        deliveries := w.deliveries ++ [.claimed] }
    else none

def Work.execute (w : Work) (index : ℕ) (r : Readings) : Option Work :=
  match w.deliveries[index]? with
  | some .claimed =>
    match admission w.payload w.reserved (0 < index) r with
    | .ok reserved => some { w.deliver index (.admitted reserved) with admitted := true }
    | .error result => some (w.deliver index (.reporting result))
  | _ => none

/-- The run on its first drive. -/
def Work.launch (w : Work) (instID : String) : StopState :=
  { drive := { run := initDAG instID w.wf w.cell [] w.event }, hold := .firstDrive }

/-- `RunInstance`: the row and its snapshot are written and the run is driven, or neither
the row nor the slot belongs to anybody. -/
def Work.run (w : Work) (index : ℕ) (ok : Bool) (instID : String) : Work :=
  if ok then
    { w.deliver index (.driving w.runs.length) with runs := w.runs ++ [w.launch instID] }
  else w.deliver index (.reporting { error := "workflow dispatch failed" })

/-- `dispatchWorkflow`. -/
def Work.start (w : Work) (index : ℕ) (ok : Bool) (instID : String) : Option Work :=
  match w.deliveries[index]? with
  | some (.admitted true) =>
    if w.reserved = some .queued then some ({ w with reserved := some .running }.run index ok instID)
    else some (w.deliver index (.reporting { success := true }))
  | some (.admitted false) => some (w.run index ok instID)
  | _ => none

/-- The call that drove the run first has returned. -/
def Work.returns (w : Work) (index : ℕ) (success canceled : Bool) : Option Work :=
  match w.deliveries[index]? with
  | some (.driving run) =>
    if w.runs[run]?.any fun s => s.hold ≠ .firstDrive then
      some (w.deliver index (.reporting
        (if canceled then { error := "context canceled" }
         else if success then { success := true }
         else { error := "workflow dispatch failed" })))
    else none
  | _ => none

/-- `Finish`; a stale claim is refused.  A PR event has no job to finish. -/
def Work.finish (w : Work) (now index : ℕ) : Option Work :=
  match w.deliveries[index]? with
  | some (.reporting result) =>
    let job := w.job.map fun j =>
      endJob now (finishAvailable now j result) (finishStates j result).2 j
    some { w.deliver index .finished with job := if w.holds index then job else w.job }
  | _ => none

/-- `reclaimExpired`. -/
def Work.expire (w : Work) (now : ℕ) : Option Work :=
  w.job.bind fun j =>
    if j.state = .leased then
      let item : Expired :=
        { jobID := j.id, attemptID := "", workerID := "", attempts := j.attemptCount,
          maxAttempts := j.maxAttempts, canceled := j.cancelRequested }
      some { w with job := some (endJob now now item.state j) }
    else none

/-- `RequestCancel` and `RequestCancelFor`. -/
def Work.cancel (w : Work) (now : ℕ) : Option Work :=
  w.job.bind fun j => if j.isOpen then some { w with job := some (cancelJob now j) } else none

/-- `StopInstance` reads the reserved row. -/
def Work.stopReserved (w : Work) : Option Work :=
  if w.reserved = some .queued then some { w with readers := w.readers + 1 } else none

/-- It cancels the reservation, unless another was first. -/
def Work.cancelReserved (w : Work) : Option Work :=
  match w.readers with
  | 0 => none
  | readers + 1 =>
    some (if w.reserved = some .queued then
        { w with readers := readers, reserved := some .canceled, owed := w.owed + 1 }
      else { w with readers := readers })

def Work.giveBack (w : Work) : Option Work :=
  match w.owed with
  | 0 => none
  | owed + 1 => some { w with owed := owed, returned := w.returned + 1 }

/-- `ForceRestart` interrupts a reservation like any row that is not terminal. -/
def Work.forceRestart (w : Work) : Work :=
  if w.reserved = some .queued then { w with reserved := some (.blocked .interrupted) } else w

/-- Under a context that has ended the store refuses every write of `settle`, the decrement
included. -/
def StopState.move (e : Engine) (fallbacks : String → ℕ) (s : StopState) :
    StopEvent → Option StopState
  | .settle => s.settle.map fun t =>
    if s.drive.ctxErr.isSome then { t with row := s.row, released := s.released } else t
  | ev => stopStep e fallbacks s ev

def Work.engine (e : Engine) (fallbacks : String → ℕ) (w : Work) (run : ℕ) (ev : StopEvent) :
    Option Work :=
  w.runs[run]?.bind fun s =>
    (s.move e fallbacks ev).map fun t => { w with runs := w.runs.set run t }

/-- The context under which a run is driven and settled ends.  On the first drive it is that
of the job, which ends when a heartbeat sees the cancel request, finds the lease lost or
fails; afterwards it is the daemon's. -/
def Work.abort (w : Work) (run : ℕ) (err : String) : Option Work :=
  w.runs[run]?.bind fun s =>
    if s.hold.driven || s.settling ≠ .idle then
      some { w with runs := w.runs.set run { s with drive := { s.drive with ctxErr := some err } } }
    else none

inductive WorkEvent where
  | enqueue (created : Option Job)
  | abandon
  | claim
  | execute (index : ℕ) (r : Readings)
  | start (index : ℕ) (ok : Bool) (instID : String)
  | returns (index : ℕ) (success canceled : Bool)
  | finish (now index : ℕ)
  | expire (now : ℕ)
  | cancel (now : ℕ)
  | stopReserved
  | cancelReserved
  | giveBack
  | forceRestart
  | engine (run : ℕ) (ev : StopEvent)
  | abort (run : ℕ) (err : String)

def workStep (e : Engine) (fallbacks : String → ℕ) (w : Work) : WorkEvent → Option Work
  | .enqueue created => w.enqueue created
  | .abandon => w.abandon
  | .claim => w.claim
  | .execute index r => w.execute index r
  | .start index ok instID => w.start index ok instID
  | .returns index success canceled => w.returns index success canceled
  | .finish now index => w.finish now index
  | .expire now => w.expire now
  | .cancel now => w.cancel now
  | .stopReserved => w.stopReserved
  | .cancelReserved => w.cancelReserved
  | .giveBack => w.giveBack
  | .forceRestart => some w.forceRestart
  | .engine run ev => w.engine e fallbacks run ev
  | .abort run err => w.abort run err

/-- A slot is taken by a fan-out, with the reservation of a manual run or without one, or
by a PR event. -/
inductive Counted : Work → Prop where
  | fanOut (wf : WorkflowConfig) (cell : SourceItem) (payload : Except String Payload)
      (hplain : ∀ p, payload = .ok p → p.reserved = false) :
      Counted { wf := wf, cell := cell, payload := payload }
  | manual (wf : WorkflowConfig) (cell : SourceItem) (payload : Except String Payload)
      (hreserved : ∀ p, payload = .ok p → p.reserved = true) :
      Counted { wf := wf, cell := cell, payload := payload, reserved := some .queued }
  | event (wf : WorkflowConfig) (cell : SourceItem) (event : String → Option String) :
      Counted { wf := wf, cell := cell, event := event, stage := .sent,
                deliveries := [.admitted false], admitted := true }

/-! ## The slot -/

/-- How often the slot was given back. -/
def Work.released (w : Work) : ℕ := w.returned + (w.runs.map StopState.released).sum

/-- Nothing of the work is left that could still act. -/
def Work.ended (w : Work) : Bool :=
  (w.stage = .sent || w.stage = .withdrawn) && (w.job.all fun j => j.state.isTerminal) &&
    w.deliveries.all Delivery.isFinished &&
    w.readers = 0 && w.owed = 0 &&
    w.runs.all fun s => !s.live && s.releasing = 0

end Apiary.Daemon
