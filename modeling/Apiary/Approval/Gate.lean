import Apiary.Approval.Store
import Apiary.Workflow.Invariants

/-!
# Answering approvals, and the goroutines that do it

One workflow instance of the daemon with everything that can advance it while it
is parked: HTTP and webhook responses (`handleApprovalResponse`,
`advanceParkedApproval`), the approval and wait checks of the poll cycle
(`checkApprovals`, `checkWaits`) and the engine calls they make.  Each goroutine
is a program counter.  A step is one database transaction, one operation on a
guard, or one critical section of the engine, so runs interleave them freely.
While the run is being driven its loop moves by the events of the scheduler.

Other instances share the tables and run their own transactions on them.  Two
fields record what the program does not
keep: `parkRequest` is the request the current park opened, and `applied` lists
the decisions that advanced the run, each with the park it advanced.
-/

namespace Apiary.Approval

open Config Workflow Function

/-! ## The calls -/

def ApprovalStatus.text : ApprovalStatus → String
  | .pending => "pending"
  | .escalated => "escalated"
  | .approved => "approved"
  | .rejected => "rejected"
  | .timedOut => "timed_out"

/-- The request `enterApproval` asks the store for. -/
def approvalRequestOf (r : DagRun) (now : ℕ) (step : StepConfig) : ApprovalRequest where
  id := r.instID ++ ":" ++ step.id
  workflowInstanceID := r.instID
  stepID := step.id
  requiredApprovals := step.requiredApprovals
  createdAt := now

/-- What `ResolveApproval` answers with on behalf of a source trigger or a
timeout. -/
def sourceResponse (instanceID : String) (approve : Bool) : ApprovalResponse :=
  let name := if approve then "approve" else "reject"
  { decision := name, actor := "source-trigger", channel := "source"
    idempotencyKey := "source:" ++ instanceID ++ ":" ++ name }

/-- The response a poll cycle rebuilds from a request that is already resolved. -/
def storedResponse (req : ApprovalRequest) : ApprovalResponse where
  decision := req.status.text
  actor := req.respondedBy
  channel := req.responseChannel
  idempotencyKey := req.idempotencyKey
  feedback := req.feedback
  values := req.values

/-- The response `ResolveApproval` goes on with: its own if it resolved the request,
the one stored there if another did, and none while the request stays open. -/
def adoptedResponse (response : ApprovalResponse) (stored : Option ApprovalRequest)
    (won : Bool) : Option ApprovalResponse :=
  if won then some response
  else
    match stored with
    | none => some response
    | some req =>
      if req.status.isOpen then none
      else some
        { response with
          decision := if req.status = .approved then "approve" else "reject"
          actor := req.respondedBy
          channel := req.responseChannel
          feedback := req.feedback
          values := req.values }

def approvalMemory (response : ApprovalResponse) : ApprovalMemory where
  writeFields := ["approval_decision", "approval_feedback"] ++ response.values.map Prod.fst
  structured := response.values ++
    [("approval_decision", .string (if response.rejects then "abort" else "resume")),
     ("approval_feedback", .string response.feedback)]
  feedback := response.feedback

/-! ## The state -/

/-- Where the engine has the run: being driven (by its first drive or by whoever
claimed it), in the parked set, or settled for good. -/
inductive Held where
  | driving
  | parked
  | gone
  deriving DecidableEq

/-- A goroutine, by what it does next. -/
inductive Handler where
  | done
  /-- an HTTP handler that found its request open -/
  | responding (request : String) (response : ApprovalResponse)
  /-- its response resolved the request -/
  | answered (request : String) (response : ApprovalResponse)
  /-- a poll cycle that saw the instance parked at an approval -/
  | polled
  | looking
  | rechecking
  | evaluating
  | escalating (request : String)
  | expiring (request : String)
  | deciding (approve : Bool)
  | resolving (request : String) (approve : Bool)
  /-- about to claim the run with a decision taken from `request` -/
  | advancing (request : Option String) (response : ApprovalResponse)
  | driving
  | leaving
  /-- a poll cycle that saw the instance parked at a wait -/
  | waitPolled
  | waitChecking
  | waking
  | waitDriving
  | waitLeaving

/-- Whoever drove the run is done with it. -/
def Handler.settled : Handler → Handler
  | .driving => .leaving
  | .waitDriving => .waitLeaving
  | h => h

/-- A decision that advanced the run, and the request of the park it advanced. -/
structure Applied where
  request : String
  park : Option String
  deriving DecidableEq

structure GateState where
  drive : DriveState
  held : Held := .driving
  store : Store := {}
  clock : ℕ := 0
  approvalAdvancing : Bool := false
  waitAdvancing : Bool := false
  handlers : ℕ → Handler := fun _ => .done
  started : ℕ := 0
  parkRequest : Option String := none
  applied : List Applied := []

namespace GateState

variable (s : GateState)

def inst : String := s.drive.run.instID

def newest : Option ApprovalRequest := s.store.getApprovalByInstance s.inst

/-- The filter of `ParkedApprovals`. -/
def parkedAtApproval : Bool :=
  s.held = .parked && (byID s.drive.run.wf s.drive.run.waitingStep).type = .approval

/-- The filter of `ParkedWaits`. -/
def parkedAtWait : Bool := s.held = .parked && s.drive.run.waitStepConfig.2

def setHandler (i : ℕ) (h : Handler) : GateState := { s with handlers := update s.handlers i h }

def launch (h : Handler) : GateState :=
  { s with handlers := update s.handlers s.started h, started := s.started + 1 }

/-! ## The steps -/

/-- Entering an approval opens its request; a store error is only logged. -/
def opened (now : ℕ) (step : StepConfig) : GateState :=
  if step.type = .approval then
    match s.store.createApprovalRequest (approvalRequestOf s.drive.run now step) with
    | .ok out => { s with store := out.1, parkRequest := some out.2.id }
    | .error _ => { s with parkRequest := none }
  else { s with parkRequest := none }

/-- The step the loop is about to park at. -/
def parking : Option StepConfig :=
  match s.drive.phase with
  | .drain wr => if s.drive.inFlight = 0 then some wr.step else none
  | _ => none

/-- A step of the run's own loop.  The clock does not run backwards. -/
def loop (e : Engine) : Event → Option GateState
  | .sched now =>
    if s.held = .driving && s.clock ≤ now then
      (schedStep e now s.drive).map fun d =>
        let moved := { s with drive := d, clock := now }
        match s.parking with
        | some step => moved.opened now step
        | none => moved
    else none
  | .worker index act =>
    if s.held = .driving then
      (workerStep e s.drive index act).map fun d => { s with drive := d }
    else none
  | .cancel err =>
    if s.held = .driving && s.drive.phase.driving then
      some { s with drive := { s.drive with ctxErr := some err } }
    else none
  | _ => none

/-- `settle`: the run goes to the parked set, or it is finished. -/
def settle : Option GateState :=
  if s.held = .driving then
    match s.drive.phase with
    | .parked => some { s with held := .parked, handlers := fun i => (s.handlers i).settled }
    | .ended _ => some { s with held := .gone, handlers := fun i => (s.handlers i).settled }
    | _ => none
  else none

/-- `ResolveApprovalResponse`: claim the parked run, if it is one, and resolve the
step it waits at. -/
def advance (e : Engine) (i : ℕ) (request : Option String) (response : ApprovalResponse) :
    Option GateState :=
  if s.held = .parked then
    (step e s.drive (.resolve (!response.rejects) (approvalMemory response))).map fun d =>
      { s with
        drive := d
        held := .driving
        handlers := update s.handlers i .driving
        parkRequest := none
        applied := (request.toList.map fun r => ⟨r, s.parkRequest⟩) ++ s.applied }
  else some (s.setHandler i .leaving)

/-- `WakeWait`: claim the parked run, if it is one, and dispatch its step again. -/
def wake (e : Engine) (i : ℕ) : Option GateState :=
  if s.held = .parked then
    (step e s.drive .wake).map fun d =>
      { s with
        drive := d
        held := .driving
        handlers := update s.handlers i .waitDriving
        parkRequest := none }
  else some (s.setHandler i .waitLeaving)

end GateState

/-- What a goroutine's environment chooses for it: `escalate` and `expire` when the
step's times have passed, `decide` with what polling the source or the CI status
said, `abandon` at shutdown. -/
inductive Act where
  | next
  | escalate
  | expire
  | decide (decision : Option Bool)
  | abandon

namespace GateState

variable (s : GateState)

/-- The next step of the goroutine `i`. -/
def act (e : Engine) (i : ℕ) (a : Act) : Option GateState :=
  match s.handlers i, a with
  | .responding request response, .next =>
    match s.store.resolveApprovalRequest request response with
    | .error _ => some (s.setHandler i .done)
    | .ok out =>
      some ({ s with store := out.1 }.setHandler i
        (if out.2.2 then .answered request response else .done))
  | .answered request response, .next =>
    if s.approvalAdvancing then some (s.setHandler i .done)
    else some ({ s with approvalAdvancing := true }.setHandler i
      (.advancing (some request) response))
  | .polled, .next =>
    if s.approvalAdvancing then some (s.setHandler i .done)
    else some ({ s with approvalAdvancing := true }.setHandler i .looking)
  | .looking, .next =>
    match s.newest with
    | none => some (s.setHandler i .rechecking)
    | some req =>
      some (s.setHandler i
        (if req.status = .approved || req.status = .rejected then
          .advancing (some req.id) (storedResponse req)
        else .rechecking))
  | .rechecking, .next => some (s.setHandler i (if s.parkedAtApproval then .evaluating else .leaving))
  | .evaluating, .escalate => s.newest.map fun req => s.setHandler i (.escalating req.id)
  | .escalating request, .next =>
    some ({ s with store := s.store.escalateApproval request }.setHandler i .evaluating)
  | .evaluating, .expire =>
    match s.newest with
    | none => some (s.setHandler i (.deciding false))
    | some req => some (s.setHandler i (.expiring req.id))
  | .expiring request, .next =>
    some ({ s with store := s.store.markApprovalTimedOut request }.setHandler i (.deciding false))
  | .evaluating, .decide none => some (s.setHandler i .leaving)
  | .evaluating, .decide (some approve) => some (s.setHandler i (.deciding approve))
  | .deciding approve, .next =>
    match s.newest with
    | none => some (s.setHandler i (.advancing none (sourceResponse s.inst approve)))
    | some req => some (s.setHandler i (.resolving req.id approve))
  | .resolving request approve, .next =>
    match s.store.resolveApprovalRequest request (sourceResponse s.inst approve) with
    | .error _ => some (s.setHandler i .leaving)
    | .ok out =>
      some ({ s with store := out.1 }.setHandler i
        (match adoptedResponse (sourceResponse s.inst approve) out.2.1 out.2.2 with
          | none => .leaving
          | some response => .advancing (some request) response))
  | .advancing request response, .next => s.advance e i request response
  | .advancing _ _, .abandon => some (s.setHandler i .leaving)
  | .leaving, .next => some ({ s with approvalAdvancing := false }.setHandler i .done)
  | .waitPolled, .next =>
    if s.waitAdvancing then some (s.setHandler i .done)
    else some ({ s with waitAdvancing := true }.setHandler i .waitChecking)
  | .waitChecking, .decide terminal =>
    some (s.setHandler i
      (if s.parkedAtWait && terminal = some true then .waking else .waitLeaving))
  | .waking, .next => s.wake e i
  | .waking, .abandon => some (s.setHandler i .waitLeaving)
  | .waitLeaving, .next => some ({ s with waitAdvancing := false }.setHandler i .done)
  | _, _ => none

/-- An HTTP handler up to its first write: the request exists and is open. -/
def respond (request : String) (response : ApprovalResponse) : Option GateState :=
  match s.store.getApprovalRequest request with
  | none => none
  | some req =>
    if req.workflowInstanceID = s.inst && req.status.isOpen then
      some (s.launch (.responding request response))
    else none

end GateState

inductive GateEvent where
  | loop (ev : Event)
  | settle
  | respond (request : String) (response : ApprovalResponse)
  | poll
  | pollWait
  | act (i : ℕ) (a : Act)
  | elsewhere (op : Store.Op)

def gateStep (e : Engine) (s : GateState) : GateEvent → Option GateState
  | .loop ev => s.loop e ev
  | .settle => s.settle
  | .respond request response => s.respond request response
  | .poll => if s.parkedAtApproval then some (s.launch .polled) else none
  | .pollWait => if s.parkedAtWait then some (s.launch .waitPolled) else none
  | .act i a => s.act e i a
  | .elsewhere op =>
    if s.store.concerns op ≠ some s.inst then some { s with store := s.store.apply op } else none

/-- The loop goes on to its next approval and parks there. -/
def toNextPark : List GateEvent := List.replicate 6 (.loop (.sched 0)) ++ [.settle]

end Apiary.Approval
