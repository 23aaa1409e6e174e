import Apiary.Core.Machine
import Apiary.Core.Table
import Apiary.Core.Text
import Mathlib.Data.List.Sort

/-!
# The dispatch queue

The three tables of the durable queue and its operations, each of which is one
serializable transaction: an operation either fails and leaves the tables alone, or
replaces them.  Times are in nanoseconds and read once per transaction, an empty text is
an absent value, and `0` stands for every non-positive number where the source treats
them alike.  Random ids and tokens are arguments, and the uniqueness of the ids is what
the schema enforces.
-/

namespace Apiary.Queue

open Table

/-! ## Tables -/

inductive JobState where
  | queued
  | leased
  | succeeded
  | failed
  | canceled
  deriving DecidableEq, Repr

/-- `isTerminalJobState`. -/
def JobState.isTerminal : JobState → Bool
  | .succeeded => true
  | .failed => true
  | .canceled => true
  | _ => false

inductive AttemptState where
  | active
  | succeeded
  | failed
  | expired
  | canceled
  deriving DecidableEq, Repr

structure Job where
  id : String := ""
  idempotencyKey : String
  projectID : String := ""
  sourceID : String := ""
  taskID : String := ""
  workflowID : String := ""
  agentID : String := ""
  runnerID : String := ""
  pool : String := ""
  requiredLabels : List String := []
  requiredCapabilities : List String := []
  affinityKey : String := ""
  affinityWorkerID : String := ""
  payloadVersion : ℕ := 1
  priority : ℤ := 0
  state : JobState := .queued
  attemptCount : ℕ := 0
  maxAttempts : ℕ := 0
  cancelRequested : Bool := false
  availableAt : ℕ := 0
  leaseAttemptID : Option String := none
  leaseToken : Option String := none
  leaseWorkerID : Option String := none
  leaseExpiresAt : Option ℕ := none
  terminalAt : Option ℕ := none
  createdAt : ℕ := 0

structure Attempt where
  id : String
  jobID : String
  number : ℕ
  workerID : String
  claimToken : String
  state : AttemptState := .active
  leaseExpiresAt : ℕ
  heartbeatAt : ℕ
  startedAt : ℕ
  finishedAt : Option ℕ := none
  errorMessage : String := ""

structure Worker where
  id : String
  protocolVersion : ℕ := 1
  pool : String := ""
  labels : List String := []
  capabilities : List String := []
  capacity : ℕ := 1
  ready : Bool := true
  draining : Bool := false
  activeJobs : ℕ := 0
  lastHeartbeat : ℕ := 0

structure Queue where
  jobs : List Job := []
  attempts : List Attempt := []
  workers : List Worker := []

inductive QueueError where
  | noJob
  | staleClaim
  | workerUnknown
  | workerDraining
  | workerUnhealthy
  /-- A lookup found no row. -/
  | noRows
  /-- A row would repeat a unique column. -/
  | constraint
  | invalid (message : String)
  deriving DecidableEq

/-! ## Jobs in -/

/-- The labels of a job or a worker as a set; they are only ever tested for membership. -/
def uniqueSorted (values : List String) : List String :=
  ((values.map trimmed).filter (· ≠ "")).dedup

/-- The row `Enqueue` inserts. -/
def newJob (now : ℕ) (newID : String) (job : Job) : Job :=
  { job with
    id := if job.id = "" then newID else job.id
    requiredLabels := uniqueSorted job.requiredLabels
    requiredCapabilities := uniqueSorted job.requiredCapabilities
    maxAttempts := if job.maxAttempts = 0 then 3 else job.maxAttempts
    availableAt := if job.availableAt = 0 then now else job.availableAt
    state := .queued
    attemptCount := 0
    cancelRequested := false
    leaseAttemptID := none
    leaseToken := none
    leaseWorkerID := none
    leaseExpiresAt := none
    terminalAt := none
    createdAt := now }

/-- `Enqueue`; whether the row is new.  The insert is ignored when the id or the key is
taken, and the existing job is then looked up by its key. -/
def Queue.enqueue (q : Queue) (now : ℕ) (newID : String) (validPayload : Bool) (job : Job) :
    Except QueueError (Queue × Bool) :=
  let row := newJob now newID job
  if trimmed job.idempotencyKey = "" then
    .error (.invalid "queue job idempotency_key is required")
  else if job.payloadVersion = 0 then .error (.invalid "queue job payload_version must be positive")
  else if !validPayload then .error (.invalid "queue job payload must be valid JSON")
  else if q.jobs.any fun j => j.id = row.id || j.idempotencyKey = row.idempotencyKey then
    if q.jobs.any fun j => j.idempotencyKey = row.idempotencyKey then .ok (q, false)
    else .error .noRows
  else .ok ({ q with jobs := q.jobs ++ [row] }, true)

/-! ## Workers -/

def workerProtocolVersion : ℕ := 1

/-- The row `RegisterWorker` writes. -/
def newWorker (now : ℕ) (worker : Worker) : Worker :=
  { worker with
    labels := uniqueSorted worker.labels
    capabilities := uniqueSorted worker.capabilities
    activeJobs := 0
    lastHeartbeat := now }

/-- `RegisterWorker`: a new row, or the old one with its counter reset. -/
def Queue.registerWorker (q : Queue) (now : ℕ) (worker : Worker) : Except QueueError Queue :=
  if trimmed worker.id = "" then .error (.invalid "worker id is required")
  else if worker.protocolVersion ≠ workerProtocolVersion then
    .error (.invalid ("worker " ++ quote worker.id ++ " protocol " ++ toString worker.protocolVersion ++
      " is incompatible; expected " ++ toString workerProtocolVersion))
  else if worker.capacity = 0 then
    .error (.invalid ("worker " ++ quote worker.id ++ " capacity must be positive"))
  else if q.workers.any fun w => w.id = worker.id then
    .ok { q with workers := update (fun w => w.id = worker.id) (fun _ => newWorker now worker) q.workers }
  else .ok { q with workers := q.workers ++ [newWorker now worker] }

/-- `HeartbeatWorker`. -/
def Queue.heartbeatWorker (q : Queue) (now : ℕ) (workerID : String) (ready : Bool) :
    Except QueueError Queue :=
  if q.workers.any fun w => w.id = workerID then
    .ok { q with
      workers := update (fun w => w.id = workerID)
        (fun w => { w with ready := ready, lastHeartbeat := now }) q.workers }
  else .error .workerUnknown

/-- `SetWorkerDrain`. -/
def Queue.setWorkerDrain (q : Queue) (workerID : String) (draining : Bool) :
    Except QueueError Queue :=
  if q.workers.any fun w => w.id = workerID then
    .ok { q with
      workers := update (fun w => w.id = workerID)
        (fun w => { w with draining := draining, ready := !draining }) q.workers }
  else .error .workerUnknown

/-! ## Claims -/

/-- A zero limit is no limit, and a keyed limit overrides the default. -/
structure ConcurrencyPolicy where
  defaultProject : ℕ := 0
  projects : String → Option ℕ := fun _ => none
  defaultSource : ℕ := 0
  sources : String → Option ℕ := fun _ => none
  defaultAgent : ℕ := 0
  agents : String → Option ℕ := fun _ => none
  defaultRunner : ℕ := 0
  runners : String → Option ℕ := fun _ => none
  defaultPool : ℕ := 0
  pools : String → Option ℕ := fun _ => none

structure ClaimRequest where
  workerID : String
  leaseDuration : ℕ := 0
  workerTimeout : ℕ := 0
  policy : ConcurrencyPolicy := {}

/-- Thirty seconds. -/
def defaultLease : ℕ := 30 * 1000000000

def orDefault (duration : ℕ) : ℕ := if duration = 0 then defaultLease else duration

/-- The columns a policy can limit. -/
inductive Scope where
  | project
  | source
  | agent
  | runner
  | pool
  deriving DecidableEq

def Scope.all : List Scope := [.project, .source, .agent, .runner, .pool]

def Scope.value : Scope → Job → String
  | .project, job => job.projectID
  | .source, job => job.sourceID
  | .agent, job => job.agentID
  | .runner, job => job.runnerID
  | .pool, job => job.pool

def scopedLimit (overrides : String → Option ℕ) (value : String) (fallback : ℕ) : ℕ :=
  match overrides value with
  | some limit => limit
  | none => fallback

def ConcurrencyPolicy.limit (policy : ConcurrencyPolicy) (value : String) : Scope → ℕ
  | .project => scopedLimit policy.projects value policy.defaultProject
  | .source => scopedLimit policy.sources value policy.defaultSource
  | .agent => scopedLimit policy.agents value policy.defaultAgent
  | .runner => scopedLimit policy.runners value policy.defaultRunner
  | .pool => scopedLimit policy.pools value policy.defaultPool

/-- The leased jobs that share a value. -/
def Queue.active (q : Queue) (scope : Scope) (value : String) : ℕ :=
  q.jobs.countP fun j => j.state = .leased && scope.value j = value

def Queue.withinPolicy (q : Queue) (policy : ConcurrencyPolicy) (job : Job) : Bool :=
  Scope.all.all fun scope =>
    let value := scope.value job
    let limit := policy.limit value scope
    limit = 0 || value = "" || q.active scope value < limit

def containsAll (have_ need : List String) : Bool := need.all fun value => have_.contains value

def compatible (worker : Worker) (job : Job) : Bool :=
  (job.pool = "" || job.pool = worker.pool) && containsAll worker.labels job.requiredLabels &&
    containsAll worker.capabilities job.requiredCapabilities

/-- Higher priority first, then older first. -/
def before (a b : Job) : Prop :=
  b.priority < a.priority ∨ a.priority = b.priority ∧ a.createdAt ≤ b.createdAt

instance : DecidableRel before := fun a b =>
  inferInstanceAs (Decidable (b.priority < a.priority ∨
    a.priority = b.priority ∧ a.createdAt ≤ b.createdAt))

def claimable (now : ℕ) (worker : Worker) (job : Job) : Bool :=
  job.state = .queued && !job.cancelRequested && job.availableAt ≤ now &&
    (job.affinityWorkerID = "" || job.affinityWorkerID = worker.id)

/-- The first of the hundred best candidates that the worker may run. -/
def Queue.select (q : Queue) (now : ℕ) (worker : Worker) (policy : ConcurrencyPolicy) :
    Option Job :=
  (((q.jobs.filter (claimable now worker)).insertionSort before).take 100).find? fun job =>
    compatible worker job && q.withinPolicy policy job

/-- What a claim writes to its job; an affinity key pins the job to the worker. -/
def leaseJob (worker : Worker) (attemptID token : String) (expires : ℕ) (job : Job) : Job :=
  { job with
    state := .leased
    attemptCount := job.attemptCount + 1
    leaseAttemptID := some attemptID
    leaseToken := some token
    leaseWorkerID := some worker.id
    leaseExpiresAt := some expires
    affinityWorkerID :=
      if job.affinityKey ≠ "" ∧ job.affinityWorkerID = "" then worker.id else job.affinityWorkerID }

def newAttempt (now expires : ℕ) (worker : Worker) (attemptID token : String) (job : Job) : Attempt :=
  { id := attemptID, jobID := job.id, number := job.attemptCount + 1, workerID := worker.id,
    claimToken := token, leaseExpiresAt := expires, heartbeatAt := now, startedAt := now }

/-- The tables after a claim. -/
def Queue.lease (q : Queue) (now expires : ℕ) (worker : Worker) (attemptID token : String)
    (job : Job) : Queue where
  jobs := update (fun j => j.id = job.id && j.state = .queued && !j.cancelRequested)
    (leaseJob worker attemptID token expires) q.jobs
  attempts := q.attempts ++ [newAttempt now expires worker attemptID token job]
  workers := update (fun w => w.id = worker.id)
    (fun w => { w with activeJobs := w.activeJobs + 1 }) q.workers

/-- `claim`, with the job as it was when it was selected. -/
def Queue.claim (q : Queue) (now : ℕ) (attemptID token : String) (request : ClaimRequest) :
    Except QueueError (Queue × Job) :=
  match q.workers.find? fun w => w.id = request.workerID with
  | none => .error .workerUnknown
  | some worker =>
    if !worker.ready || worker.draining then .error .workerDraining
    else if worker.lastHeartbeat + orDefault request.workerTimeout < now then
      .error .workerUnhealthy
    else if worker.capacity ≤ worker.activeJobs then .error .noJob
    else
      match q.select now worker request.policy with
      | none => .error .noJob
      | some job =>
        if q.jobs.countP (fun j => j.id = job.id && j.state = .queued && !j.cancelRequested) ≠ 1
        then .error .noJob
        else if q.attempts.any fun a =>
            a.id = attemptID || a.jobID = job.id && a.number = job.attemptCount + 1 then
          .error .constraint
        else
          .ok (q.lease now (now + orDefault request.leaseDuration) worker attemptID token job, job)

/-! ## Heartbeats -/

/-- The attempt a heartbeat or a finish names. -/
def Attempt.holds (jobID attemptID token : String) (a : Attempt) : Bool :=
  a.id = attemptID && a.jobID = jobID && a.claimToken = token && a.state = .active

/-- The job is leased under this attempt and token. -/
def Job.leasedAs (jobID attemptID token : String) (j : Job) : Bool :=
  j.id = jobID && j.state = .leased && j.leaseAttemptID = some attemptID &&
    j.leaseToken = some token

def extendJob (expires : ℕ) (j : Job) : Job := { j with leaseExpiresAt := some expires }

def extendAttempt (now expires : ℕ) (a : Attempt) : Attempt :=
  { a with heartbeatAt := now, leaseExpiresAt := expires }

/-- `heartbeat`; whether the worker should cancel. -/
def Queue.heartbeat (q : Queue) (now : ℕ) (jobID attemptID token : String) (extension : ℕ) :
    Except QueueError (Queue × Bool) :=
  let expires := now + orDefault extension
  if q.attempts.countP (Attempt.holds jobID attemptID token) ≠ 1 then .error .staleClaim
  else
    match q.jobs.find? (Job.leasedAs jobID attemptID token) with
    | none => .error .staleClaim
    | some job =>
      .ok ({ q with
        jobs := update (Job.leasedAs jobID attemptID token) (extendJob expires) q.jobs
        attempts := update (Attempt.holds jobID attemptID token) (extendAttempt now expires)
          q.attempts },
        job.cancelRequested)

/-! ## The end of an attempt -/

structure FinishResult where
  success : Bool := false
  error : String := ""
  note : String := ""
  retry : Bool := false
  retryAt : Option ℕ := none

/-- The states a finish leaves its attempt and its job in. -/
def finishStates (job : Job) (result : FinishResult) : AttemptState × JobState :=
  if job.cancelRequested then (.canceled, .canceled)
  else if result.success then (.succeeded, .succeeded)
  else if result.retry && job.attemptCount < job.maxAttempts then (.failed, .queued)
  else (.failed, .failed)

def finishAvailable (now : ℕ) (job : Job) (result : FinishResult) : ℕ :=
  if (finishStates job result).2 = .queued then result.retryAt.getD now else now

/-- What the end of an attempt writes to its job. -/
def endJob (now available : ℕ) (state : JobState) (job : Job) : Job :=
  { job with
    state := state
    availableAt := available
    leaseAttemptID := none
    leaseToken := none
    leaseWorkerID := none
    leaseExpiresAt := none
    terminalAt := if state.isTerminal then some now else none }

def endAttempt (now : ℕ) (state : AttemptState) (explanation : String) (a : Attempt) : Attempt :=
  { a with state := state, finishedAt := some now, errorMessage := explanation }

/-- A worker's counter never goes below zero. -/
def freeWorker (workerID : String) (workers : List Worker) : List Worker :=
  update (fun w => w.id = workerID) (fun w => { w with activeJobs := w.activeJobs - 1 }) workers

/-- `finish`. -/
def Queue.finish (q : Queue) (now : ℕ) (jobID attemptID token : String) (result : FinishResult) :
    Except QueueError Queue :=
  match q.jobs.find? (Job.leasedAs jobID attemptID token) with
  | none => .error .staleClaim
  | some job =>
    let states := finishStates job result
    .ok
      { jobs := update (fun j => j.id = jobID && j.leaseAttemptID = some attemptID &&
            j.leaseToken = some token)
          (endJob now (finishAvailable now job result) states.2) q.jobs
        attempts := update (fun a => a.id = attemptID && a.claimToken = token && a.state = .active)
          (endAttempt now states.1 (if result.error = "" then result.note else result.error))
          q.attempts
        workers := freeWorker (job.leaseWorkerID.getD "") q.workers }

/-- What `reclaimExpired` reads of an expired lease. -/
structure Expired where
  jobID : String
  attemptID : String
  workerID : String
  attempts : ℕ
  maxAttempts : ℕ
  canceled : Bool

/-- The scan of one row; a lease without an attempt id does not scan. -/
def Job.expired (j : Job) : Option Expired :=
  j.leaseAttemptID.map fun attemptID =>
    { jobID := j.id, attemptID := attemptID, workerID := j.leaseWorkerID.getD "",
      attempts := j.attemptCount, maxAttempts := j.maxAttempts, canceled := j.cancelRequested }

def Expired.state (item : Expired) : JobState :=
  if item.canceled then .canceled
  else if item.maxAttempts ≤ item.attempts then .failed
  else .queued

/-- One pass of the loop: a lease that is gone by now frees nothing. -/
def Queue.reclaim (now : ℕ) (q : Queue) (item : Expired) : Queue :=
  let broken : Job → Bool := fun j =>
    j.id = item.jobID && j.state = .leased && j.leaseAttemptID = some item.attemptID
  { jobs := update broken (endJob now now item.state) q.jobs
    attempts := update (fun a => a.id = item.attemptID && a.state = .active)
      (endAttempt now .expired "lease expired") q.attempts
    workers := if q.jobs.any broken then freeWorker item.workerID q.workers else q.workers }

/-- The leases that `reclaimExpired` reads. -/
def Queue.expiredJobs (q : Queue) (cutoff : ℕ) : List Job :=
  q.jobs.filter fun j => j.state = .leased && j.leaseExpiresAt.any (· ≤ cutoff)

/-- `reclaimExpired`. -/
def Queue.reclaimExpired (q : Queue) (now cutoff : ℕ) : Except QueueError Queue :=
  match (q.expiredJobs cutoff).mapM Job.expired with
  | none => .error .noRows
  | some items => .ok (items.foldl (Queue.reclaim now) q)

/-! ## Cancellation and affinity -/

/-- What a cancel writes: a queued job is over, a leased one is marked. -/
def cancelJob (now : ℕ) (j : Job) : Job :=
  { j with
    cancelRequested := true
    state := if j.state = .queued then .canceled else j.state
    terminalAt := if j.state = .queued then some now else j.terminalAt }

def Job.isOpen (j : Job) : Bool := j.state = .queued || j.state = .leased

/-- `RequestCancel`. -/
def Queue.requestCancel (q : Queue) (now : ℕ) (jobID : String) : Except QueueError Queue :=
  let hits : Job → Bool := fun j => j.id = jobID && j.isOpen
  if q.jobs.any hits then .ok { q with jobs := update hits (cancelJob now) q.jobs }
  else .error (.invalid ("queue job " ++ quote jobID ++ " is not cancelable"))

/-- `RequestCancelFor`; an absent column equals nothing. -/
def Queue.requestCancelFor (q : Queue) (now : ℕ) (taskID workflowID : String) : Queue :=
  { q with
    jobs := update (fun j => j.taskID ≠ "" && j.taskID = taskID && j.workflowID ≠ "" &&
      j.workflowID = workflowID && j.isOpen) (cancelJob now) q.jobs }

def unpinJob (j : Job) : Job := { j with affinityWorkerID := "" }

/-- `ReleaseAffinity`. -/
def Queue.releaseAffinity (q : Queue) (jobID : String) : Except QueueError Queue :=
  let hits : Job → Bool := fun j => j.id = jobID && j.state = .queued
  if q.jobs.countP hits ≠ 1 then
    .error (.invalid ("queue job " ++ quote jobID ++ " affinity can only be released while queued"))
  else .ok { q with jobs := update hits unpinJob q.jobs }

/-! ## The machine -/

inductive Operation where
  | enqueue (newID : String) (validPayload : Bool) (job : Job)
  | registerWorker (worker : Worker)
  | heartbeatWorker (workerID : String) (ready : Bool)
  | setWorkerDrain (workerID : String) (draining : Bool)
  | claim (attemptID token : String) (request : ClaimRequest)
  | heartbeat (jobID attemptID token : String) (extension : ℕ)
  | finish (jobID attemptID token : String) (result : FinishResult)
  | requestCancel (jobID : String)
  | requestCancelFor (taskID workflowID : String)
  | releaseAffinity (jobID : String)
  | reclaimExpired (cutoff : ℕ)

def Queue.apply (q : Queue) (now : ℕ) : Operation → Except QueueError Queue
  | .enqueue newID validPayload job => (q.enqueue now newID validPayload job).map Prod.fst
  | .registerWorker worker => q.registerWorker now worker
  | .heartbeatWorker workerID ready => q.heartbeatWorker now workerID ready
  | .setWorkerDrain workerID draining => q.setWorkerDrain workerID draining
  | .claim attemptID token request => (q.claim now attemptID token request).map Prod.fst
  | .heartbeat jobID attemptID token extension =>
    (q.heartbeat now jobID attemptID token extension).map Prod.fst
  | .finish jobID attemptID token result => q.finish now jobID attemptID token result
  | .requestCancel jobID => q.requestCancel now jobID
  | .requestCancelFor taskID workflowID => .ok (q.requestCancelFor now taskID workflowID)
  | .releaseAffinity jobID => q.releaseAffinity jobID
  | .reclaimExpired cutoff => q.reclaimExpired now cutoff

/-- One transaction at a time; a failed one is rolled back. -/
def queueStep (q : Queue) (ev : ℕ × Operation) : Option Queue :=
  match q.apply ev.1 ev.2 with
  | .ok q' => some q'
  | .error _ => some q

end Apiary.Queue
