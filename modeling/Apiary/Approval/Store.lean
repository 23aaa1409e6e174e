import Apiary.Workflow.Run
import Mathlib.Data.List.MinMax
import Mathlib.Data.List.Nodup
import Mathlib.Order.Nat

/-!
# The approval tables

`approval_requests` holds one row for each visit to an approval step, and
`approval_responses` the answers given to them.  Each operation is one database
transaction.  Rows are kept in the order of their rowid.  The unique constraint
on a request's own idempotency key is left out: it repeats the one on responses,
which is checked first.
-/

namespace Apiary.Approval

open Workflow List

variable {change : ApprovalRequest → ApprovalRequest} {id instanceID : String}
  {response : ApprovalResponse} {out : Store × Option ApprovalRequest × Bool}
  {r r' req : ApprovalRequest}

inductive ApprovalStatus where
  | pending
  | escalated
  | approved
  | rejected
  | timedOut
  deriving DecidableEq

/-- A request in one of these states can still be answered. -/
def ApprovalStatus.isOpen : ApprovalStatus → Bool
  | .pending => true
  | .escalated => true
  | _ => false

structure ApprovalRequest where
  id : String
  workflowInstanceID : String
  stepID : String
  requiredApprovals : ℕ := 0
  status : ApprovalStatus := .pending
  values : Structured := []
  feedback : String := ""
  respondedBy : String := ""
  responseChannel : String := ""
  idempotencyKey : String := ""
  attempt : ℕ := 0
  createdAt : ℕ := 0

structure ApprovalResponse where
  decision : String
  actor : String := ""
  approver : String := ""
  channel : String := ""
  idempotencyKey : String := ""
  feedback : String := ""
  values : Structured := []

/-- `strings.EqualFold` against a lower-case ASCII word. -/
def equalFold (text word : String) : Bool := text.toList.map Char.toLower = word.toList

/-- Every decision that is not a rejection counts as an approval. -/
def ApprovalResponse.rejects (response : ApprovalResponse) : Bool :=
  equalFold response.decision "reject" || equalFold response.decision "rejected"

def ApprovalResponse.status (response : ApprovalResponse) : ApprovalStatus :=
  if response.rejects then .rejected else .approved

/-- The approver a response counts for. -/
def ApprovalResponse.principal (response : ApprovalResponse) : String :=
  if response.approver = "" then response.actor else response.approver

/-- A row of `approval_responses`, with the columns that are read back. -/
structure ResponseRow where
  requestID : String
  decision : ApprovalStatus
  approver : String
  idempotencyKey : String

structure Store where
  requests : List ApprovalRequest := []
  responses : List ResponseRow := []

namespace Store

open List

variable (s : Store)

/-! ## Reads -/

def getApprovalRequest (id : String) : Option ApprovalRequest := s.requests.find? fun r => r.id = id

def requestsOf (instanceID : String) : List ApprovalRequest :=
  s.requests.filter fun r => r.workflowInstanceID = instanceID

/-- The most recently created request of an instance; the rowid breaks a tie. -/
def getApprovalByInstance (instanceID : String) : Option ApprovalRequest :=
  (s.requestsOf instanceID).reverse.argmax ApprovalRequest.createdAt

def requestsAt (instanceID stepID : String) : List ApprovalRequest :=
  s.requests.filter fun r => r.workflowInstanceID = instanceID && r.stepID = stepID

/-- The gate that is already open for a step, if there is one. -/
def openRequest (instanceID stepID : String) : Option ApprovalRequest :=
  ((s.requestsAt instanceID stepID).filter fun r => r.status.isOpen).argmax ApprovalRequest.attempt

def nextAttempt (instanceID stepID : String) : ℕ :=
  ((s.requestsAt instanceID stepID).map ApprovalRequest.attempt).foldr max 0 + 1

def countApprovals (id : String) : ℕ :=
  s.responses.countP fun row => row.requestID = id && row.decision = .approved

/-! ## Writes -/

/-- The row `createApprovalRequest` inserts for a visit that finds no open gate. -/
def mint (req : ApprovalRequest) : ApprovalRequest :=
  let attempt := if req.attempt = 0 then s.nextAttempt req.workflowInstanceID req.stepID
    else req.attempt
  { req with
    requiredApprovals := if req.requiredApprovals = 0 then 1 else req.requiredApprovals
    attempt := attempt
    id := if 1 < attempt then req.id ++ "@" ++ toString attempt else req.id }

/-- A visit reuses the gate that is open for its step and otherwise opens a new
one.  The second component is the request as the caller sees it afterwards. -/
def createApprovalRequest (req : ApprovalRequest) : Except String (Store × ApprovalRequest) :=
  if req.id = "" || req.workflowInstanceID = "" || req.stepID = "" then
    .error "approval id, instance, and step are required"
  else
    match s.openRequest req.workflowInstanceID req.stepID with
    | some gate => .ok (s, gate)
    | none =>
      let minted := s.mint req
      if (s.requestsAt req.workflowInstanceID req.stepID).any
          fun r => r.attempt = minted.attempt then
        .ok (s, minted)
      else if s.requests.any fun r => r.id = minted.id then
        .error "UNIQUE constraint failed: approval_requests.id"
      else .ok ({ s with requests := s.requests ++ [minted] }, minted)

def updateRequest (id : String) (change : ApprovalRequest → ApprovalRequest) : Store :=
  { s with requests := s.requests.map fun r => if r.id = id then change r else r }

def resolution (response : ApprovalResponse) (r : ApprovalRequest) : ApprovalRequest :=
  if r.status.isOpen then
    { r with
      status := response.status
      values := response.values
      feedback := response.feedback
      respondedBy := response.actor
      responseChannel := response.channel
      idempotencyKey := response.idempotencyKey }
  else r

/-- A response is not inserted twice: neither under a key that any response
already has, nor for an approver who has answered the request. -/
def conflicts (id : String) (response : ApprovalResponse) : Bool :=
  s.responses.any fun row =>
    row.idempotencyKey = response.idempotencyKey ||
      (row.requestID = id && row.approver = response.principal)

def record (id : String) (response : ApprovalResponse) : Store :=
  { s with
    responses := s.responses ++
      [{ requestID := id, decision := response.status, approver := response.principal,
         idempotencyKey := response.idempotencyKey }] }

/-- Records a response and resolves the request when that decides it.  Besides the
tables it returns the request as stored and whether this response resolved it. -/
def resolveApprovalRequest (id : String) (response : ApprovalResponse) :
    Except String (Store × Option ApprovalRequest × Bool) :=
  if response.idempotencyKey = "" then .error "idempotency key is required"
  else
    match s.getApprovalRequest id with
    | none => .error "sql: no rows in result set"
    | some current =>
      if !current.status.isOpen || s.conflicts id response then .ok (s, some current, false)
      else
        let recorded := s.record id response
        if response.rejects || current.requiredApprovals ≤ recorded.countApprovals id then
          let resolved := recorded.updateRequest id (resolution response)
          .ok (resolved, resolved.getApprovalRequest id, true)
        else .ok (recorded, some current, false)

def markApprovalTimedOut (id : String) : Store :=
  s.updateRequest id fun r => if r.status.isOpen then { r with status := .timedOut } else r

def escalateApproval (id : String) : Store :=
  s.updateRequest id fun r => if r.status = .pending then { r with status := .escalated } else r

/-- The transactions on the tables. -/
inductive Op where
  | create (req : ApprovalRequest)
  | resolve (id : String) (response : ApprovalResponse)
  | timeOut (id : String)
  | escalate (id : String)

/-- A transaction that fails is rolled back. -/
def apply : Op → Store
  | .create req =>
    match s.createApprovalRequest req with
    | .ok out => out.1
    | .error _ => s
  | .resolve id response =>
    match s.resolveApprovalRequest id response with
    | .ok out => out.1
    | .error _ => s
  | .timeOut id => s.markApprovalTimedOut id
  | .escalate id => s.escalateApproval id

/-- The instance a transaction concerns. -/
def concerns : Op → Option String
  | .create req => some req.workflowInstanceID
  | .resolve id _ => (s.getApprovalRequest id).map ApprovalRequest.workflowInstanceID
  | .timeOut id => (s.getApprovalRequest id).map ApprovalRequest.workflowInstanceID
  | .escalate id => (s.getApprovalRequest id).map ApprovalRequest.workflowInstanceID

end Store

/-! ## What writes can do to the requests -/

/-- A row keeps what identifies it, and once closed it never changes. -/
structure Evolves (r r' : ApprovalRequest) : Prop where
  id : r'.id = r.id
  instance_eq : r'.workflowInstanceID = r.workflowInstanceID
  step : r'.stepID = r.stepID
  required : r'.requiredApprovals = r.requiredApprovals
  attempt : r'.attempt = r.attempt
  createdAt : r'.createdAt = r.createdAt
  closed : r.status.isOpen = false → r' = r

/-- The requests of `t` are those of `s`, each further along. -/
def RequestsEvolve (s t : Store) : Prop :=
  ∃ change : ApprovalRequest → ApprovalRequest,
    t.requests = s.requests.map change ∧ ∀ r, Evolves r (change r)

theorem Evolves.refl (r : ApprovalRequest) : Evolves r r :=
  ⟨rfl, rfl, rfl, rfl, rfl, rfl, fun _ => rfl⟩

theorem RequestsEvolve.refl (s : Store) : RequestsEvolve s s :=
  ⟨fun r => r, (map_id s.requests).symm, Evolves.refl⟩

section Evolution

variable {s t : Store}

/-- An update of one request evolves the table if the change evolves the request. -/
theorem updateRequest_evolves (s : Store) (id : String) (hchange : ∀ r, Evolves r (change r)) :
    RequestsEvolve s (s.updateRequest id change) := by
  refine ⟨fun r => if r.id = id then change r else r, rfl, ?_⟩
  intro r
  by_cases hid : r.id = id
  · simp only [hid, if_true]
    exact hchange r
  · simp only [hid, if_false]
    exact Evolves.refl r

theorem resolution_evolves (response : ApprovalResponse) (r : ApprovalRequest) :
    Evolves r (Store.resolution response r) := by
  rw [Store.resolution]
  split_ifs with hopen
  · exact ⟨rfl, rfl, rfl, rfl, rfl, rfl, fun hclosed => (nomatch hopen.symm.trans hclosed)⟩
  · exact Evolves.refl r

theorem timedOut_evolves (r : ApprovalRequest) :
    Evolves r (if r.status.isOpen then { r with status := .timedOut } else r) := by
  split_ifs with hopen
  · exact ⟨rfl, rfl, rfl, rfl, rfl, rfl, fun hclosed => (nomatch hopen.symm.trans hclosed)⟩
  · exact Evolves.refl r

theorem escalated_evolves (r : ApprovalRequest) :
    Evolves r (if r.status = .pending then { r with status := .escalated } else r) := by
  split_ifs with hpending
  · refine ⟨rfl, rfl, rfl, rfl, rfl, rfl, ?_⟩
    intro hclosed
    simp [hpending, ApprovalStatus.isOpen] at hclosed
  · exact Evolves.refl r

theorem markApprovalTimedOut_evolves (s : Store) (id : String) :
    RequestsEvolve s (s.markApprovalTimedOut id) :=
  updateRequest_evolves s id timedOut_evolves

theorem escalateApproval_evolves (s : Store) (id : String) :
    RequestsEvolve s (s.escalateApproval id) :=
  updateRequest_evolves s id escalated_evolves

/-- The possible effects of answering a request. -/
inductive Answered (s : Store) (id : String) (response : ApprovalResponse) :
    Store × Option ApprovalRequest × Bool → Prop where
  | refused (current : ApprovalRequest) (hfind : s.getApprovalRequest id = some current)
      (hrefused : current.status.isOpen = true → s.conflicts id response = true) :
      Answered s id response (s, some current, false)
  | counted (current : ApprovalRequest) (hfind : s.getApprovalRequest id = some current)
      (hopen : current.status.isOpen = true) (hfree : s.conflicts id response = false)
      (hrejects : response.rejects = false)
      (hshort : (s.record id response).countApprovals id < current.requiredApprovals) :
      Answered s id response (s.record id response, some current, false)
  | decided (current : ApprovalRequest) (hfind : s.getApprovalRequest id = some current)
      (hopen : current.status.isOpen = true) (hfree : s.conflicts id response = false)
      (stored : Option ApprovalRequest) :
      Answered s id response
        ((s.record id response).updateRequest id (Store.resolution response), stored, true)

/-- An answer is refused, counted or decides the request. -/
theorem resolveApprovalRequest_cases (hresolve : s.resolveApprovalRequest id response = .ok out) :
    Answered s id response out := by
  rw [Store.resolveApprovalRequest] at hresolve
  split_ifs at hresolve
  split at hresolve
  · cases hresolve
  · rename_i current hfind
    split at hresolve
    · rename_i hrefused
      cases hresolve
      refine .refused current hfind ?_
      intro hopen
      simpa [hopen] using hrefused
    · rename_i haccepted
      simp only [Bool.or_eq_true, Bool.not_eq_true', not_or, Bool.not_eq_true,
        Bool.not_eq_false] at haccepted
      dsimp only at hresolve
      split_ifs at hresolve with hundecided
      · cases hresolve
        exact .decided current hfind haccepted.1 haccepted.2 _
      · rw [Except.ok.injEq] at hresolve
        simp only [Bool.or_eq_true, decide_eq_true_eq, not_or, Bool.not_eq_true, not_le]
          at hundecided
        exact hresolve ▸
          .counted current hfind haccepted.1 haccepted.2 hundecided.1 hundecided.2

theorem Answered.evolves (hanswered : Answered s id response out) : RequestsEvolve s out.1 := by
  cases hanswered with
  | refused | counted => exact RequestsEvolve.refl s
  | decided => exact updateRequest_evolves (s.record id response) id (resolution_evolves response)

/-! ## Finding rows -/

theorem getApprovalRequest_mem (hfind : s.getApprovalRequest id = some r) :
    r ∈ s.requests ∧ r.id = id :=
  ⟨mem_of_find?_eq_some hfind, by simpa using find?_some hfind⟩

theorem RequestsEvolve.ids (hevolve : RequestsEvolve s t) :
    t.requests.map ApprovalRequest.id = s.requests.map ApprovalRequest.id := by
  obtain ⟨change, hrequests, hrow⟩ := hevolve
  rw [hrequests, map_map]
  exact map_congr_left fun r _ => (hrow r).id

/-- Every row has an earlier form. -/
theorem RequestsEvolve.of_mem (hevolve : RequestsEvolve s t) (hr : r ∈ t.requests) :
    ∃ old ∈ s.requests, Evolves old r := by
  obtain ⟨change, hrequests, hrow⟩ := hevolve
  rw [hrequests] at hr
  obtain ⟨old, hold, rfl⟩ := mem_map.mp hr
  exact ⟨old, hold, hrow old⟩

theorem Evolves.isOpen (hrow : Evolves r r') (hopen : r'.status.isOpen = true) :
    r.status.isOpen = true := by
  cases hold : r.status.isOpen with
  | true => rfl
  | false =>
    rw [hrow.closed hold, hold] at hopen
    cases hopen

theorem argmax_map {α β : Type*} (key : β → ℕ) (change : α → β) (l : List α) :
    (l.map change).argmax key = (l.argmax fun a => key (change a)).map change := by
  induction l with
  | nil => rfl
  | cons a l ih =>
    rw [map_cons, argmax_cons, argmax_cons, ih]
    cases l.argmax fun a => key (change a) with
    | none => rfl
    | some =>
      simp only [Option.map_some]
      split <;> rfl

/-- The newest request of a run is the same before and after an update. -/
theorem RequestsEvolve.newest (hevolve : RequestsEvolve s t) (instanceID : String) :
    (t.getApprovalByInstance instanceID).map ApprovalRequest.id =
      (s.getApprovalByInstance instanceID).map ApprovalRequest.id := by
  obtain ⟨change, hrequests, hrow⟩ := hevolve
  have hof : t.requestsOf instanceID = (s.requestsOf instanceID).map change := by
    rw [Store.requestsOf, hrequests, filter_map, Store.requestsOf]
    congr 1
    exact filter_congr fun r _ => by simp [(hrow r).instance_eq]
  have hkey : (fun r => (change r).createdAt) = ApprovalRequest.createdAt := by
    funext r
    exact (hrow r).createdAt
  rw [Store.getApprovalByInstance, hof, ← map_reverse, argmax_map, hkey, Option.map_map]
  rw [Store.getApprovalByInstance]
  congr 1
  funext r
  exact (hrow r).id

theorem getApprovalByInstance_append {responses : List ResponseRow}
    (hlatest : ∀ old ∈ s.requestsOf r.workflowInstanceID, old.createdAt ≤ r.createdAt) :
    Store.getApprovalByInstance { requests := s.requests ++ [r], responses := responses }
      r.workflowInstanceID = some r := by
  have hof : Store.requestsOf { requests := s.requests ++ [r], responses := responses }
      r.workflowInstanceID = s.requestsOf r.workflowInstanceID ++ [r] := by
    simp [Store.requestsOf]
  rw [Store.getApprovalByInstance, hof, reverse_append, reverse_singleton,
    singleton_append, argmax_cons]
  cases hold : (s.requestsOf r.workflowInstanceID).reverse.argmax ApprovalRequest.createdAt with
  | none => rfl
  | some old =>
    have hmem : old ∈ s.requestsOf r.workflowInstanceID := mem_reverse.mp (argmax_mem hold)
    exact if_neg (not_lt.mpr (hlatest old hmem))

/-! ## Opening a request -/

/-- The possible effects of a visit. -/
inductive Created (s : Store) (req : ApprovalRequest) : Store × ApprovalRequest → Prop where
  | reused (gate : ApprovalRequest) (hmem : gate ∈ s.requests)
      (hinstance : gate.workflowInstanceID = req.workflowInstanceID)
      (hopen : gate.status.isOpen = true) : Created s req (s, gate)
  | kept (r : ApprovalRequest) (hr : r ∈ s.requestsAt req.workflowInstanceID req.stepID)
      (htaken : r.attempt = (s.mint req).attempt) : Created s req (s, s.mint req)
  | minted (hfresh : ∀ r ∈ s.requests, r.id ≠ (s.mint req).id) :
      Created s req ({ s with requests := s.requests ++ [s.mint req] }, s.mint req)

/-- A request is minted, found under its attempt, or the open one of its run is returned. -/
theorem createApprovalRequest_cases {out : Store × ApprovalRequest}
    (hcreate : s.createApprovalRequest req = .ok out) : Created s req out := by
  rw [Store.createApprovalRequest] at hcreate
  split_ifs at hcreate
  split at hcreate
  · rename_i gate hgate
    rw [Except.ok.injEq] at hcreate
    have hmem := argmax_mem hgate
    simp only [Store.requestsAt, mem_filter, Bool.and_eq_true, decide_eq_true_eq] at hmem
    exact hcreate ▸ .reused gate hmem.1.1 hmem.1.2.1 hmem.2
  · dsimp only at hcreate
    split at hcreate
    · rename_i htaken
      rw [Except.ok.injEq] at hcreate
      obtain ⟨r, hr, hsame⟩ := any_eq_true.mp htaken
      exact hcreate ▸ .kept r hr (of_decide_eq_true hsame)
    · split_ifs at hcreate with hfree
      cases hcreate
      refine .minted ?_
      simpa using hfree

/-- A visit that brings no attempt number of its own gets a new one. -/
theorem mint_attempt_fresh (hattempt : req.attempt = 0)
    (hr : r ∈ s.requestsAt req.workflowInstanceID req.stepID) :
    r.attempt ≠ (s.mint req).attempt := by
  have hmem : r.attempt ∈
      (s.requestsAt req.workflowInstanceID req.stepID).map ApprovalRequest.attempt :=
    mem_map_of_mem hr
  have hlt : r.attempt < s.nextAttempt req.workflowInstanceID req.stepID :=
    Nat.lt_succ_of_le (le_max_of_le hmem le_rfl)
  have hminted : (s.mint req).attempt = s.nextAttempt req.workflowInstanceID req.stepID := by
    simp [Store.mint, hattempt]
  omega

/-! ## What any transaction does to the tables -/

/-- A request that has been resolved or has timed out. -/
def Closed (s : Store) (id : String) : Prop := ∃ r ∈ s.requests, r.id = id ∧ r.status.isOpen = false

/-- The rows move on, or one with a new id is added. -/
inductive Grows (s t : Store) : Prop where
  | evolved (hevolve : RequestsEvolve s t)
  | added (row : ApprovalRequest) (hrequests : t.requests = s.requests ++ [row])
      (hfresh : ∀ r ∈ s.requests, r.id ≠ row.id)

theorem Grows.ids (hgrows : Grows s t) (hids : (s.requests.map ApprovalRequest.id).Nodup) :
    (t.requests.map ApprovalRequest.id).Nodup := by
  cases hgrows with
  | evolved hevolve => rwa [hevolve.ids]
  | added row hrequests hfresh =>
    rw [hrequests, map_append, map_singleton, ← concat_eq_append]
    exact .concat (by simpa using hfresh) hids

/-- A closed request stays closed as the table grows. -/
theorem Grows.closed (hgrows : Grows s t) (hclosed : Closed s id) : Closed t id := by
  obtain ⟨r, hr, hid, hstatus⟩ := hclosed
  cases hgrows with
  | evolved hevolve =>
    obtain ⟨change, hrequests, hrow⟩ := hevolve
    have hsame : change r = r := (hrow r).closed hstatus
    refine ⟨r, ?_, hid, hstatus⟩
    rw [hrequests]
    exact mem_map.mpr ⟨r, hr, hsame⟩
  | added row hrequests =>
    refine ⟨r, ?_, hid, hstatus⟩
    rw [hrequests]
    exact mem_append_left _ hr

/-- A request of an instance stays one. -/
theorem Grows.requestOf (hgrows : Grows s t) (hmem : ∃ r ∈ s.requestsOf instanceID, r.id = id) :
    ∃ r ∈ t.requestsOf instanceID, r.id = id := by
  obtain ⟨r, hr, hid⟩ := hmem
  rw [Store.requestsOf, mem_filter, decide_eq_true_eq] at hr
  cases hgrows with
  | evolved hevolve =>
    obtain ⟨change, hrequests, hrow⟩ := hevolve
    refine ⟨change r, ?_, (hrow r).id.trans hid⟩
    rw [Store.requestsOf, mem_filter, decide_eq_true_eq, hrequests]
    exact ⟨mem_map_of_mem hr.1, (hrow r).instance_eq.trans hr.2⟩
  | added row hrequests =>
    refine ⟨r, ?_, hid⟩
    rw [Store.requestsOf, mem_filter, decide_eq_true_eq, hrequests]
    exact ⟨mem_append_left _ hr.1, hr.2⟩

variable (hids : (s.requests.map ApprovalRequest.id).Nodup)

include hids

theorem eq_of_id (hr : r ∈ s.requests) (hr' : r' ∈ s.requests) (hid : r.id = r'.id) : r = r' :=
  inj_on_of_nodup_map hids hr hr' hid

theorem getApprovalRequest_of_mem (hr : r ∈ s.requests) : s.getApprovalRequest r.id = some r := by
  cases hfind : s.getApprovalRequest r.id with
  | none =>
    have hnone := find?_eq_none.mp hfind r hr
    simp at hnone
  | some =>
    obtain ⟨hmem, hid⟩ := getApprovalRequest_mem hfind
    rw [eq_of_id hids hmem hr hid]

theorem updateRequest_requestsOf (hchange : ∀ r, Evolves r (change r))
    (hother : (s.getApprovalRequest id).map ApprovalRequest.workflowInstanceID ≠ some instanceID) :
    (s.updateRequest id change).requestsOf instanceID = s.requestsOf instanceID := by
  have hkeep : ∀ r ∈ s.requestsOf instanceID, r.id ≠ id := by
    intro r hr hid
    rw [Store.requestsOf, mem_filter, decide_eq_true_eq] at hr
    rw [← hid, getApprovalRequest_of_mem hids hr.1, Option.map_some, hr.2] at hother
    exact hother rfl
  rw [Store.requestsOf, Store.updateRequest, filter_map]
  have hfilter : s.requests.filter
      ((fun r => decide (r.workflowInstanceID = instanceID)) ∘
        fun r => if r.id = id then change r else r) = s.requestsOf instanceID := by
    refine filter_congr fun r _ => ?_
    rw [Function.comp_apply]
    split
    · rw [(hchange r).instance_eq]
    · rfl
  rw [hfilter]
  calc (s.requestsOf instanceID).map (fun r => if r.id = id then change r else r)
      = (s.requestsOf instanceID).map fun r => r := map_congr_left fun r hr => if_neg (hkeep r hr)
    _ = s.requestsOf instanceID := map_id _

omit hids in
/-- Every operation evolves the requests there are and appends at most one. -/
theorem apply_grows (s : Store) (op : Store.Op) : Grows s (s.apply op) := by
  have hself : Grows s s := .evolved (RequestsEvolve.refl s)
  cases op with
  | create req =>
    rw [Store.apply]
    split
    · rename_i hcreate
      cases createApprovalRequest_cases hcreate with
      | reused | kept => exact hself
      | minted hfresh => exact .added (s.mint req) rfl hfresh
    · exact hself
  | resolve =>
    rw [Store.apply]
    split
    · rename_i hresolve
      exact .evolved (resolveApprovalRequest_cases hresolve).evolves
    · exact hself
  | timeOut id => exact .evolved (markApprovalTimedOut_evolves s id)
  | escalate id => exact .evolved (escalateApproval_evolves s id)

/-- An operation touches the requests of the run it concerns only. -/
theorem apply_requestsOf {op : Store.Op} (hother : s.concerns op ≠ some instanceID) :
    (s.apply op).requestsOf instanceID = s.requestsOf instanceID := by
  cases op with
  | create req =>
    rw [Store.apply]
    split
    · rename_i hcreate
      cases createApprovalRequest_cases hcreate with
      | reused | kept => rfl
      | minted =>
        have hne : req.workflowInstanceID ≠ instanceID := by
          intro heq
          exact hother (congrArg some heq)
        simp [Store.requestsOf, Store.mint, hne]
    · rfl
  | resolve id response =>
    rw [Store.apply]
    split
    · rename_i hresolve
      cases resolveApprovalRequest_cases hresolve with
      | refused | counted => rfl
      | decided =>
        have hrecorded : ((s.record id response).requests.map ApprovalRequest.id).Nodup := hids
        exact updateRequest_requestsOf hrecorded (resolution_evolves response) hother
    · rfl
  | timeOut => exact updateRequest_requestsOf hids timedOut_evolves hother
  | escalate => exact updateRequest_requestsOf hids escalated_evolves hother

end Evolution

end Apiary.Approval
