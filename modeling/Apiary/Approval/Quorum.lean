import Apiary.Approval.Policy
import Apiary.Approval.Source
import Apiary.Core.Machine

/-!
# Quorums

One request of an approval step with everything that can happen to it: responses
over HTTP and by webhook, the reminders, escalation, timeout and source checks of
the poll cycles, and the transactions of other requests on the same tables.  A
handler checks its response first and writes it later, and a poll cycle decides
first and writes later, so the two interleave freely.

The tables keep one response for each approver of a request.  `answers` records
beside them who gave it.
-/

namespace Apiary.Approval

open Workflow List Option Machine Store ApprovalResponse

variable {r current req : ApprovalRequest} {change : ApprovalRequest → ApprovalRequest} {t : Store}
  {response : ApprovalResponse} {actor sctx : String}

/-- The request `enterApproval` opens for a step. -/
def requestFor (inst : String) (now : ℕ) (step : ApprovalStep) : ApprovalRequest where
  id := inst ++ ":" ++ step.id
  workflowInstanceID := inst
  stepID := step.id
  requiredApprovals := step.requiredApprovals.toNat
  createdAt := now

/-- How many approvals the stored request asks for. -/
def ApprovalStep.quorum (step : ApprovalStep) : ℕ := max 1 step.requiredApprovals.toNat

/-- A response the request has, with the person who gave it. -/
structure Answer where
  actor : String
  approver : String
  decision : ApprovalStatus
  deriving DecidableEq

def ApprovalResponse.answer (response : ApprovalResponse) : Answer where
  actor := response.actor
  approver := response.principal
  decision := response.status

structure Ballot where
  store : Store
  /-- responses that passed their check and are about to be written -/
  arriving : List ApprovalResponse := []
  /-- decisions of poll cycles that are about to be written -/
  deciding : List Bool := []
  answers : List Answer := []

inductive Endpoint where
  | respond
  | webhook (signed : Bool)
  deriving DecidableEq

inductive BallotEvent where
  /-- a posted response, with its key header and one visit of the delegates -/
  | post (endpoint : Endpoint) (header : String) (visit : List (String × List String))
      (response : ApprovalResponse)
  | write (i : ℕ)
  | remind
  | escalate
  | expire
  | check (items : List LiveItem)
  | decide (i : ℕ)
  | elsewhere (op : Store.Op)

/-- The channel and the key a handler gives a response before it checks it. -/
def received (endpoint : Endpoint) (header : String) (response : ApprovalResponse) :
    ApprovalResponse :=
  { response with
    channel :=
      match endpoint with
      | .webhook _ => "webhook"
      | .respond => if response.channel = "cli" then "cli" else "dashboard"
    idempotencyKey := if response.idempotencyKey = "" then header else response.idempotencyKey }

/-- A transaction on another request that opens none for the instance. -/
def Store.Op.spares (inst id : String) : Store.Op → Bool
  | .create req => req.workflowInstanceID ≠ inst
  | .resolve other _ => other ≠ id
  | .timeOut other => other ≠ id
  | .escalate other => other ≠ id

section Machine

variable (lib : TextLib) (step : ApprovalStep) (inst id : String)

/-- The rest of a handler up to its write: only an open request is answered. -/
def Ballot.post (b : Ballot) (endpoint : Endpoint) (header : String)
    (visit : List (String × List String)) (response : ApprovalResponse) : Ballot :=
  if endpoint = .webhook false then b
  else
    match b.store.getApprovalRequest id with
    | none => b
    | some req =>
      if req.status.isOpen then
        match validateApprovalResponse lib step visit (received endpoint header response) with
        | .error _ => b
        | .ok answer => { b with arriving := b.arriving ++ [answer] }
      else b

/-- `ResolveApprovalRequest` on `request`. -/
def Ballot.resolve (b : Ballot) (request : String) (response : ApprovalResponse) : Ballot :=
  match b.store.resolveApprovalRequest request response with
  | .error _ => b
  | .ok out =>
    { b with
      store := out.1
      answers := b.answers ++
        if request = id && out.1.responses.length ≠ b.store.responses.length then
          [response.answer]
        else [] }

def ballotStep (b : Ballot) : BallotEvent → Option Ballot
  | .post endpoint header visit response =>
    if visit.isPerm step.delegates then some (b.post lib step id endpoint header visit response)
    else none
  | .write i =>
    (b.arriving[i]?).map fun response =>
      { b with arriving := b.arriving.eraseIdx i }.resolve id id response
  | .remind => some b
  | .escalate =>
    (b.store.getApprovalByInstance inst).map fun req =>
      { b with store := b.store.escalateApproval req.id }
  | .expire =>
    match b.store.getApprovalByInstance inst with
    | none => some { b with deciding := b.deciding ++ [false] }
    | some req =>
      some { b with
        store := b.store.markApprovalTimedOut req.id
        deciding := b.deciding ++ [false] }
  | .check items =>
    match recheckSources lib step items with
    | .wait => some b
    | .resume => some { b with deciding := b.deciding ++ [true] }
    | .abort => some { b with deciding := b.deciding ++ [false] }
  | .decide i =>
    (b.deciding[i]?).map fun approve =>
      let taken := { b with deciding := b.deciding.eraseIdx i }
      match b.store.getApprovalByInstance inst with
      | none => taken
      | some req => taken.resolve id req.id (sourceResponse inst approve)
  | .elsewhere op => if op.spares inst id then some { b with store := b.store.apply op } else none

/-- Different approvers have different names, and a name is a delegate of one
approver only, both without regard to case. -/
def separates : Bool :=
  (step.approvers.all fun name => step.approvers.all fun other =>
    !sameName lib name other || name = other) &&
  step.delegates.all fun entry => step.delegates.all fun other =>
    entry.2.all fun delegate => other.2.all fun delegate' =>
      !sameName lib delegate delegate' || entry.1 = other.1

/-- The answers that decide an approved request: enough of them, from different people
and on behalf of different approvers of the list. -/
structure Quorum (answers : List Answer) : Prop where
  length : answers.length = step.quorum
  approves : ∀ a ∈ answers, a.decision = .approved
  people : answers.Pairwise fun a b => sameName lib a.actor b.actor = false
  approvers : answers.Pairwise fun a b => sameName lib a.approver b.approver = false
  listed : ∀ a ∈ answers, a.approver ∈ step.approvers
  authorized : ∀ a ∈ answers, StandsFor lib step a.actor a.approver

end Machine

/-! ## What a transaction does to one request -/

/-- The decisions on a request and the approvers they were given for. -/
def Store.columnsOf (s : Store) (id : String) : List (ApprovalStatus × String) :=
  (s.responses.filter fun row => row.requestID = id).map fun row => (row.decision, row.approver)

section Columns

variable {s t : Store} {inst id other : String} {response : ApprovalResponse}

theorem columnsOf_record (s : Store) (id : String) (response : ApprovalResponse) :
    (s.record id response).columnsOf id =
      s.columnsOf id ++ [(response.status, response.principal)] := by
  simp [columnsOf, record]

theorem columnsOf_record_of_ne (hother : other ≠ id) :
    (s.record other response).columnsOf id = s.columnsOf id := by
  simp [columnsOf, record, hother]

theorem countApprovals_le (s : Store) (id : String) :
    s.countApprovals id ≤ (s.columnsOf id).length := by
  rw [countApprovals, columnsOf, length_map, ← countP_eq_length_filter]
  apply countP_mono_left
  intro row _ hrow
  rw [Bool.and_eq_true] at hrow
  exact hrow.1

theorem Undecided.columns (hundecided : Undecided s r) :
    ∀ column ∈ s.columnsOf r.id, column.1 = .approved := by
  intro column hcolumn
  obtain ⟨row, hrow, rfl⟩ := List.mem_map.mp hcolumn
  rw [mem_filter, decide_eq_true_eq] at hrow
  exact hundecided.approvals row hrow.1 hrow.2

theorem principal_fresh (hfree : s.conflicts id response = false) :
    response.principal ∉ (s.columnsOf id).map Prod.snd := by
  intro hmem
  rw [columnsOf, List.map_map] at hmem
  obtain ⟨row, hrow, heq⟩ := List.mem_map.mp hmem
  rw [mem_filter, decide_eq_true_eq] at hrow
  rw [conflicts, List.any_eq_false] at hfree
  have hrow' := hfree row hrow.1
  simp [hrow.2, show row.approver = response.principal from heq] at hrow'

/-- A response that approves a request is the last of as many as it needs. -/
theorem resolve_approves {out : Store × Option ApprovalRequest × Bool}
    (hresolve : s.resolveApprovalRequest id response = .ok out) (hwon : out.2.2 = true)
    (happroves : response.rejects = false) (hfind : s.getApprovalRequest id = some current) :
    current.requiredApprovals ≤ (s.record id response).countApprovals id := by
  rw [resolveApprovalRequest, hfind] at hresolve
  dsimp only at hresolve
  rw [happroves, Bool.false_or] at hresolve
  split at hresolve
  · cases hresolve
  · split at hresolve
    · rw [Except.ok.injEq] at hresolve
      rw [← hresolve] at hwon
      cases hwon
    · split_ifs at hresolve with henough
      · exact of_decide_eq_true henough
      · rw [Except.ok.injEq] at hresolve
        rw [← hresolve] at hwon
        cases hwon

theorem mem_updateRequest_of_ne (hchange : ∀ r, Evolves r (change r)) (hother : other ≠ id)
    (hid : r.id = id) : r ∈ (s.updateRequest other change).requests ↔ r ∈ s.requests := by
  rw [updateRequest, List.mem_map]
  constructor
  · rintro ⟨old, hold, heq⟩
    split_ifs at heq with hold'
    · rw [← heq, (hchange old).id, hold'] at hid
      exact absurd hid hother
    · exact heq ▸ hold
  · intro hr
    exact ⟨r, hr, if_neg fun heq => hother (heq.symm.trans hid)⟩

/-- What the transactions of others leave alone. -/
structure Spared (inst id : String) (s t : Store) : Prop where
  rows : ∀ r, r.id = id → (r ∈ t.requests ↔ r ∈ s.requests)
  columns : t.columnsOf id = s.columnsOf id
  newest : (t.getApprovalByInstance inst).map ApprovalRequest.id =
    (s.getApprovalByInstance inst).map ApprovalRequest.id

theorem Spared.refl (s : Store) : Spared inst id s s := ⟨fun _ _ => Iff.rfl, rfl, rfl⟩

theorem updateRequest_spared (hchange : ∀ r, Evolves r (change r)) (hother : other ≠ id) :
    Spared inst id s (s.updateRequest other change) :=
  ⟨fun _ hid => mem_updateRequest_of_ne hchange hother hid, rfl,
    (updateRequest_evolves s other hchange).newest inst⟩

theorem apply_spared (hok : StoreOk s) {op : Store.Op} (hspares : op.spares inst id = true)
    (hrow : ∃ r ∈ s.requests, r.id = id) : Spared inst id s (s.apply op) := by
  cases op with
  | create req =>
    have hinst : req.workflowInstanceID ≠ inst := of_decide_eq_true hspares
    have hof : (s.apply (.create req)).requestsOf inst = s.requestsOf inst :=
      apply_requestsOf hok.ids fun heq => hinst (some.inj heq)
    have hnewest : (s.apply (.create req)).getApprovalByInstance inst =
        s.getApprovalByInstance inst := by
      rw [getApprovalByInstance, hof, getApprovalByInstance]
    rw [apply] at hnewest ⊢
    split
    · rename_i hcreate
      rw [hcreate] at hnewest
      cases createApprovalRequest_cases hcreate with
      | reused | kept => exact Spared.refl s
      | minted hfresh =>
        refine ⟨?_, rfl, congrArg _ hnewest⟩
        intro r hid
        obtain ⟨known, hknown, hknownID⟩ := hrow
        have hne : r ≠ s.mint req := by
          rintro rfl
          exact hfresh known hknown (hknownID.trans hid.symm)
        simp [hne]
    · exact Spared.refl s
  | resolve other response =>
    have hother : other ≠ id := of_decide_eq_true hspares
    rw [apply]
    split
    · rename_i hresolve
      cases resolveApprovalRequest_cases hresolve with
      | refused => exact Spared.refl s
      | counted => exact ⟨fun _ _ => Iff.rfl, columnsOf_record_of_ne hother, rfl⟩
      | decided =>
        have hspared : Spared inst id (s.record other response) _ :=
          updateRequest_spared (resolution_evolves response) hother
        exact ⟨hspared.rows, hspared.columns.trans (columnsOf_record_of_ne hother), hspared.newest⟩
    · exact Spared.refl s
  | timeOut => exact updateRequest_spared timedOut_evolves (of_decide_eq_true hspares)
  | escalate => exact updateRequest_spared escalated_evolves (of_decide_eq_true hspares)

end Columns

/-! ## Every run -/

def Answer.column (a : Answer) : ApprovalStatus × String := (a.decision, a.approver)

/-- What the events keep of a request with named approvers. -/
structure Sound (lib : TextLib) (step : ApprovalStep) (inst id : String) (b : Ballot) : Prop where
  store : StoreOk b.store
  newest : (b.store.getApprovalByInstance inst).map ApprovalRequest.id = some id
  row : ∃ r ∈ b.store.requests, r.id = id ∧ r.requiredApprovals = step.quorum
  columns : b.answers.map Answer.column = b.store.columnsOf id
  slots : (b.answers.map Answer.approver).Nodup
  arriving : ∀ response ∈ b.arriving, StandsFor lib step response.actor response.principal
  deciding : ∀ approve ∈ b.deciding, approve = false
  standing : ∀ a ∈ b.answers, a.decision = .approved → StandsFor lib step a.actor a.approver
  approved : ∀ r ∈ b.store.requests, r.id = id → r.status = .approved →
    (∀ a ∈ b.answers, a.decision = .approved) ∧ step.quorum ≤ b.answers.length

section Runs

variable {lib : TextLib} {step : ApprovalStep} {inst id : String} {b c : Ballot}

theorem slots_eq (hcolumns : b.answers.map Answer.column = b.store.columnsOf id) :
    b.answers.map Answer.approver = (b.store.columnsOf id).map Prod.snd := by
  rw [← hcolumns, List.map_map]
  rfl

variable (hb : Sound lib step inst id b)

include hb

theorem Sound.row_evolve (hevolve : RequestsEvolve b.store t) :
    ∃ r ∈ t.requests, r.id = id ∧ r.requiredApprovals = step.quorum := by
  obtain ⟨r, hr, hid, hrequired⟩ := hb.row
  obtain ⟨next, hrequests, hrow⟩ := hevolve
  refine ⟨next r, ?_, (hrow r).id.trans hid, (hrow r).required.trans hrequired⟩
  rw [hrequests]
  exact List.mem_map_of_mem hr

/-- The rows of the request move on, no response is added and none is approved. -/
theorem Sound.evolve {request : String} (hchange : ∀ r, Evolves r (change r))
    (hstatus : ∀ r, (change r).status = .approved → r.status = .approved) :
    Sound lib step inst id { b with store := b.store.updateRequest request change } := by
  have hevolve := updateRequest_evolves b.store request hchange
  refine ⟨hb.store.evolve hevolve rfl, (hevolve.newest inst).trans hb.newest,
    hb.row_evolve hevolve, hb.columns, hb.slots, hb.arriving, hb.deciding, hb.standing, ?_⟩
  intro r hr hid happroved
  obtain ⟨old, hold, rfl⟩ := List.mem_map.mp hr
  split_ifs at hid with hrequest
  · rw [if_pos hrequest] at happroved
    exact hb.approved old hold ((hchange old).id.symm.trans hid) (hstatus old happroved)
  · rw [if_neg hrequest] at happroved
    exact hb.approved old hold hid happroved

theorem Sound.spared (ht : StoreOk t) (hspared : Spared inst id b.store t) :
    Sound lib step inst id { b with store := t } := by
  refine ⟨ht, hspared.newest.trans hb.newest, ?_, hb.columns.trans hspared.columns.symm, hb.slots,
    hb.arriving, hb.deciding, hb.standing, ?_⟩
  · obtain ⟨r, hr, hid, hrequired⟩ := hb.row
    exact ⟨r, (hspared.rows r hid).mpr hr, hid, hrequired⟩
  · intro r hr hid happroved
    exact hb.approved r ((hspared.rows r hid).mp hr) hid happroved

theorem Sound.recorded (hfind : b.store.getApprovalRequest id = some current)
    (hopen : current.status.isOpen = true) (hfree : b.store.conflicts id response = false)
    (hstands : response.rejects = false → StandsFor lib step response.actor response.principal)
    (ht : StoreOk t) (hevolve : RequestsEvolve b.store t)
    (hresponses : t.responses = (b.store.record id response).responses)
    (happroved : ∀ r ∈ t.requests, r.id = id → r.status = .approved → response.rejects = false ∧
        current.requiredApprovals ≤ (b.store.record id response).countApprovals id) :
    Sound lib step inst id
      { b with
        store := t
        answers := b.answers ++ [response.answer] } := by
  have hcolumns : (b.answers ++ [response.answer]).map Answer.column = t.columnsOf id := by
    calc (b.answers ++ [response.answer]).map Answer.column
        = b.store.columnsOf id ++ [(response.status, response.principal)] := by
            rw [map_append, hb.columns]
            rfl
      _ = (b.store.record id response).columnsOf id := (columnsOf_record b.store id response).symm
      _ = t.columnsOf id := by rw [columnsOf, columnsOf, hresponses]
  obtain ⟨hcurrent, hid⟩ := getApprovalRequest_mem hfind
  refine ⟨ht, (hevolve.newest inst).trans hb.newest, hb.row_evolve hevolve, hcolumns, ?_,
    hb.arriving, hb.deciding, ?_, ?_⟩
  · rw [map_append, map_singleton, ← concat_eq_append]
    refine .concat ?_ hb.slots
    rw [slots_eq hb.columns]
    exact principal_fresh hfree
  · refine Table.forall_insert hb.standing fun hdecision => hstands ?_
    cases hrejects : response.rejects with
    | false => rfl
    | true => simp [answer, status, hrejects] at hdecision
  · intro r hr hrid hstatus
    obtain ⟨hrejects, henough⟩ := happroved r hr hrid hstatus
    have hundecided := hb.store.undecided current hcurrent hopen
    obtain ⟨known, hknown, hknownID, hrequired⟩ := hb.row
    have hsame := eq_of_id hb.store.ids hcurrent hknown (hid.trans hknownID.symm)
    subst hsame
    constructor
    · refine Table.forall_insert (fun a hold => hundecided.columns a.column ?_) ?_
      · rw [hid, ← hb.columns]
        exact List.mem_map_of_mem hold
      · simp [answer, status, hrejects]
    · calc step.quorum = current.requiredApprovals := hrequired.symm
        _ ≤ (b.store.record id response).countApprovals id := henough
        _ ≤ ((b.store.record id response).columnsOf id).length := countApprovals_le _ id
        _ = (t.columnsOf id).length := by rw [columnsOf, columnsOf, hresponses]
        _ = (b.answers ++ [response.answer]).length := by rw [← hcolumns, length_map]

/-- Answering the request, as a handler or a poll cycle does. -/
theorem Sound.resolve
    (hstands : response.rejects = false → StandsFor lib step response.actor response.principal) :
    Sound lib step inst id (b.resolve id id response) := by
  rw [Ballot.resolve]
  split
  · exact hb
  · rename_i hresolve
    have hok := hb.store.answered (resolveApprovalRequest_cases hresolve)
    have hevolve := (resolveApprovalRequest_cases hresolve).evolves
    cases resolveApprovalRequest_cases hresolve with
    | refused =>
      rw [if_neg (by simp), append_nil]
      exact hb
    | counted current hfind hopen hfree =>
      rw [if_pos (by simp [record])]
      refine hb.recorded hfind hopen hfree hstands hok hevolve rfl ?_
      intro r hr hid happroved
      obtain ⟨hcurrent, hcurrentID⟩ := getApprovalRequest_mem hfind
      have hsame := eq_of_id hb.store.ids hr hcurrent (hid.trans hcurrentID.symm)
      rw [hsame] at happroved
      rw [happroved] at hopen
      cases hopen
    | decided current hfind hopen hfree =>
      rw [if_pos (by simp [record, updateRequest])]
      refine hb.recorded hfind hopen hfree hstands hok hevolve rfl ?_
      intro r hr hid happroved
      obtain ⟨hcurrent, hcurrentID⟩ := getApprovalRequest_mem hfind
      have hrejects : response.rejects = false := by
        obtain ⟨old, hold, rfl⟩ := List.mem_map.mp hr
        have holdID : old.id = id := by
          split at hid
          · assumption
          · exact hid
        rw [if_pos holdID, resolution,
          eq_of_id hb.store.ids hold hcurrent (holdID.trans hcurrentID.symm), if_pos hopen]
          at happroved
        cases hrejects : response.rejects with
        | false => rfl
        | true => simp [status, hrejects] at happroved
      exact ⟨hrejects, resolve_approves hresolve rfl hrejects hfind⟩

theorem newest_id (hnewest : b.store.getApprovalByInstance inst = some req) : req.id = id := by
  have hid := hb.newest
  rwa [hnewest, map_some, some.injEq] at hid

theorem Sound.posted (hnamed : step.approvers ≠ []) {visit : List (String × List String)}
    (hvisit : ∀ entry ∈ visit, entry ∈ step.delegates) (endpoint : Endpoint) (header : String)
    (response : ApprovalResponse) :
    Sound lib step inst id (b.post lib step id endpoint header visit response) := by
  rw [Ballot.post]
  split
  · exact hb
  · split
    · exact hb
    · split
      · split
        · exact hb
        · rename_i hvalid
          refine { hb with arriving := Table.forall_insert hb.arriving ?_ }
          exact validateApprovalResponse_standsFor hnamed hvisit hvalid
      · exact hb

theorem Sound.stepped (hnamed : step.approvers ≠ []) {ev : BallotEvent}
    (hstep : ballotStep lib step inst id b ev = some c) : Sound lib step inst id c := by
  cases ev with
  | post endpoint header visit response =>
    rw [ballotStep, ite_none_right_eq_some, some.injEq] at hstep
    obtain ⟨hperm, rfl⟩ := hstep
    have hvisit : ∀ entry ∈ visit, entry ∈ step.delegates :=
      fun entry => (isPerm_iff.mp hperm).mem_iff.mp
    exact hb.posted hnamed hvisit endpoint header response
  | write i =>
    obtain ⟨response, hresponse, rfl⟩ := map_eq_some_iff.mp hstep
    have herased : Sound lib step inst id { b with arriving := b.arriving.eraseIdx i } :=
      { hb with arriving := fun other hother => hb.arriving other (mem_of_mem_eraseIdx hother) }
    exact herased.resolve fun _ => hb.arriving response (mem_of_getElem? hresponse)
  | remind =>
    rw [ballotStep, some.injEq] at hstep
    exact hstep ▸ hb
  | escalate =>
    obtain ⟨req, -, rfl⟩ := map_eq_some_iff.mp hstep
    refine hb.evolve escalated_evolves ?_
    intro r happroved
    split_ifs at happroved
    exact happroved
  | expire =>
    have hdeciding : ∀ approve ∈ b.deciding ++ [false], approve = false :=
      Table.forall_insert hb.deciding rfl
    rw [ballotStep] at hstep
    split at hstep
    · exact some.inj hstep ▸ { hb with deciding := hdeciding }
    · rename_i req hnewest
      rw [some.injEq] at hstep
      have hexpired : Sound lib step inst id
          { b with store := b.store.markApprovalTimedOut req.id } := by
        refine hb.evolve timedOut_evolves ?_
        intro r happroved
        split_ifs at happroved
        exact happroved
      exact hstep ▸ { hexpired with deciding := hdeciding }
  | check =>
    rw [ballotStep, recheckSources_named lib hnamed, some.injEq] at hstep
    exact hstep ▸ hb
  | decide i =>
    obtain ⟨approve, happrove, hstep⟩ := map_eq_some_iff.mp hstep
    have hfalse := hb.deciding approve (mem_of_getElem? happrove)
    have herased : Sound lib step inst id { b with deciding := b.deciding.eraseIdx i } :=
      { hb with deciding := fun other hother => hb.deciding other (mem_of_mem_eraseIdx hother) }
    dsimp only at hstep
    split at hstep
    · exact hstep ▸ herased
    · rename_i hnewest
      rw [newest_id hb hnewest] at hstep
      refine hstep ▸ herased.resolve ?_
      intro hrejects
      subst hfalse
      cases hrejects.symm.trans (sourceResponse_rejects inst false)
  | elsewhere op =>
    rw [ballotStep, ite_none_right_eq_some, some.injEq] at hstep
    obtain ⟨hspares, rfl⟩ := hstep
    obtain ⟨r, hr, hid, -⟩ := hb.row
    exact hb.spared (hb.store.apply op) (apply_spared hb.store hspares ⟨r, hr, hid⟩)

/-! ## The request as it is opened -/

omit hb in
theorem mint_quorum (s : Store) (now : ℕ) :
    (s.mint (requestFor inst now step)).requiredApprovals = step.quorum := by
  change (if step.requiredApprovals.toNat = 0 then 1 else step.requiredApprovals.toNat) =
    max 1 step.requiredApprovals.toNat
  by_cases hzero : step.requiredApprovals.toNat = 0
  · rw [if_pos hzero, hzero]
    rfl
  · rw [if_neg hzero]
    omega

omit hb in
theorem opened_sound {s s₁ : Store} (hok : StoreOk s) {now : ℕ}
    (hcreate : s.createApprovalRequest (requestFor inst now step) = .ok (s₁, req))
    (hnew : ∀ r ∈ s.requests, r.id ≠ req.id)
    (hlatest : ∀ old ∈ s.requestsOf inst, old.createdAt ≤ now) :
    Sound lib step inst req.id { store := s₁ } := by
  have hcreated := createApprovalRequest_cases hcreate
  have hok₁ : StoreOk s₁ := hok.created hcreated
  cases hcreated with
  | reused gate hmem => exact absurd rfl (hnew req hmem)
  | kept r hr htaken => exact absurd htaken (mint_attempt_fresh rfl hr)
  | minted hfresh =>
    have hnewest : getApprovalByInstance
        { s with requests := s.requests ++ [s.mint (requestFor inst now step)] } inst =
          some (s.mint (requestFor inst now step)) := getApprovalByInstance_append hlatest
    have hcolumns : columnsOf
        { s with requests := s.requests ++ [s.mint (requestFor inst now step)] }
        (s.mint (requestFor inst now step)).id = [] := by
      rw [columnsOf, map_eq_nil_iff, filter_eq_nil_iff]
      intro row hrow hid
      obtain ⟨r, hr, hrid⟩ := hok.known row hrow
      exact hfresh r hr (hrid.trans (of_decide_eq_true hid))
    refine ⟨hok₁, ?_, ⟨_, mem_append_right _ (mem_singleton_self _), rfl,
      mint_quorum s now⟩, hcolumns.symm, nodup_nil, fun _ h => absurd h not_mem_nil,
      fun _ h => absurd h not_mem_nil, fun _ h => absurd h not_mem_nil, ?_⟩
    · exact congrArg (Option.map ApprovalRequest.id) hnewest
    · exact Table.forall_insert (fun r hold hid => absurd hid (hfresh r hold)) nofun

/-! ## Different people -/

omit hb in
/-- With separate names a person answers for one approver only. -/
theorem StandsFor.unique (hseparate : separates lib step = true) {other p q : String}
    (hp : StandsFor lib step actor p) (hq : StandsFor lib step other q)
    (hsame : sameName lib actor other = true) : p = q := by
  have hlookup : listedApprover lib step actor = listedApprover lib step other :=
    listedApprover_congr hsame
  cases hp with
  | listed hlisted =>
    cases hq with
    | listed hlisted' =>
      rw [hlisted, hlisted', some.injEq] at hlookup
      exact hlookup
    | delegate hunlisted => rw [hlisted, hunlisted] at hlookup; cases hlookup
  | delegate hunlisted delegates hentry delegate hdelegate hnamed =>
    cases hq with
    | listed hlisted' => rw [hunlisted, hlisted'] at hlookup; cases hlookup
    | delegate hunlisted' delegates' hentry' delegate' hdelegate' hnamed' =>
      have hdelegates : sameName lib delegate delegate' = true := by
        rw [sameName_eq_true] at hnamed hnamed' hsame ⊢
        exact hnamed.trans (hsame.trans hnamed'.symm)
      rw [separates, Bool.and_eq_true] at hseparate
      have hone := List.all_eq_true.mp (List.all_eq_true.mp (List.all_eq_true.mp
        (List.all_eq_true.mp hseparate.2 _ hentry) _ hentry') _ hdelegate) _ hdelegate'
      simpa [hdelegates] using hone

omit hb in
theorem approvers_separate (hseparate : separates lib step = true) {p q : String}
    (hp : p ∈ step.approvers) (hq : q ∈ step.approvers) (hsame : sameName lib p q = true) :
    p = q := by
  rw [separates, Bool.and_eq_true] at hseparate
  have hone := List.all_eq_true.mp (List.all_eq_true.mp hseparate.1 p hp) q hq
  simpa [hsame] using hone

omit hb in
theorem StandsFor.mem_approvers (hvalid : validateApprovalStep lib sctx step = [])
    {approver : String} (hstands : StandsFor lib step actor approver) :
    approver ∈ step.approvers := by
  cases hstands with
  | listed hlisted => exact (listedApprover_eq_some hlisted).1
  | delegate hunlisted delegates hentry => exact owner_mem_approvers lib hvalid _ hentry

omit hb in
theorem pairwise_of_length_le_one {α : Type*} {l : List α} (hlength : l.length ≤ 1)
    (rel : α → α → Prop) : l.Pairwise rel := by
  match l, hlength with
  | [], _ => exact .nil
  | [a], _ => exact pairwise_singleton rel a

theorem Sound.quorum (hvalid : validateApprovalStep lib sctx step = [])
    (hseparate : step.quorum ≤ 1 ∨ separates lib step = true) (hr : r ∈ b.store.requests)
    (hid : r.id = id) (happroved : r.status = .approved) :
    Quorum lib step (b.answers.take step.quorum) := by
  obtain ⟨happroves, henough⟩ := hb.approved r hr hid happroved
  have hmem : ∀ a ∈ b.answers.take step.quorum, a ∈ b.answers := fun a => mem_of_mem_take
  have hstands : ∀ a ∈ b.answers.take step.quorum, StandsFor lib step a.actor a.approver :=
    fun a ha => hb.standing a (hmem a ha) (happroves a (hmem a ha))
  have hlisted : ∀ a ∈ b.answers.take step.quorum, a.approver ∈ step.approvers :=
    fun a ha => (hstands a ha).mem_approvers hvalid
  have hlength : (b.answers.take step.quorum).length = step.quorum := by
    rw [length_take]
    omega
  have hslots : (b.answers.take step.quorum).Pairwise fun a a' => a.approver ≠ a'.approver :=
    (pairwise_map.mp hb.slots).sublist (take_sublist _ _)
  refine ⟨hlength, fun a ha => happroves a (hmem a ha), ?_, ?_, hlisted, hstands⟩
  · rcases hseparate with hone | hseparate
    · exact pairwise_of_length_le_one (hlength.trans_le hone) _
    · refine hslots.imp_of_mem ?_
      intro a a' ha ha' hne
      refine Bool.eq_false_iff.mpr fun hsame => hne ?_
      exact (hstands a ha).unique hseparate (hstands a' ha') hsame
  · rcases hseparate with hone | hseparate
    · exact pairwise_of_length_le_one (hlength.trans_le hone) _
    · refine hslots.imp_of_mem ?_
      intro a a' ha ha' hne
      refine Bool.eq_false_iff.mpr fun hsame => hne ?_
      exact approvers_separate hseparate (hlisted a ha) (hlisted a' ha') hsame

end Runs

/-- A request of a validated step with named approvers is approved only by a quorum of
its answers, none of which rejects, whatever happens to it from the moment it is
opened, provided that one approval is enough or that the step keeps its names
separate. -/
theorem approved_by_quorum (lib : TextLib) {sctx : String} {step : ApprovalStep}
    (hvalid : validateApprovalStep lib sctx step = []) (hnamed : step.approvers ≠ [])
    (hseparate : step.quorum ≤ 1 ∨ separates lib step = true) {history : List Store.Op}
    {inst : String} {now : ℕ} {opened : Store} {req : ApprovalRequest}
    (hcreate : (history.foldl apply {}).createApprovalRequest (requestFor inst now step) =
      .ok (opened, req))
    (hnew : ∀ r ∈ (history.foldl apply {}).requests, r.id ≠ req.id)
    (hlatest : ∀ r ∈ (history.foldl apply {}).requestsOf inst, r.createdAt ≤ now)
    {es : List BallotEvent} {b : Ballot}
    (hrun : exec (ballotStep lib step inst req.id) { store := opened } es = some b)
    {r : ApprovalRequest} (hr : r ∈ b.store.requests) (hid : r.id = req.id)
    (happroved : r.status = .approved) :
    (∃ answers, answers.Sublist b.answers ∧ Quorum lib step answers) ∧
      ∀ a ∈ b.answers, a.decision ≠ .rejected := by
  have hok : ∀ (ops : List Store.Op) (s : Store), StoreOk s → StoreOk (ops.foldl apply s) := by
    intro ops
    induction ops with
    | nil => exact fun s hs => hs
    | cons op ops ih => exact fun s hs => ih (s.apply op) (hs.apply op)
  have hstart : Sound lib step inst req.id { store := opened } :=
    opened_sound (hok history {} storeOk_empty) hcreate hnew hlatest
  have hb : Sound lib step inst req.id b :=
    exec_invariant_of_step (fun _ _ _ hs hstep => hs.stepped hnamed hstep) hstart hrun
  refine ⟨⟨_, take_sublist step.quorum b.answers, hb.quorum hvalid hseparate hr hid happroved⟩, ?_⟩
  intro a ha hrejected
  have happroves := (hb.approved r hr hid happroved).1 a ha
  rw [hrejected] at happroves
  cases happroves

/-- Case mappings for plain ASCII names. -/
def asciiLib : TextLib where
  lower := Char.toLower
  fold := Char.toLower
  parseDuration := fun raw => .error ("time: invalid duration " ++ quote raw)

def authorize : ApprovalStep where
  id := "authorize"
  message := "Approve the production release."
  approvers := ["alice", "carol"]
  requiredApprovals := 2
  delegates := [("alice", ["bob"])]

def approveAs (actor approver key : String) : ApprovalResponse where
  decision := "approve"
  actor := actor
  approver := approver
  idempotencyKey := key

/-- The request a step of the instance opens on empty tables. -/
def firstRequest (step : ApprovalStep) : ApprovalRequest := mint {} (requestFor "wf-1" 0 step)

/-- A delegate of one approver and the other approver answer, in their own spelling. -/
def bobAndCarol : List BallotEvent :=
  [.post .respond "" authorize.delegates (approveAs "Bob" "" "k1"), .escalate,
   .post (.webhook true) "k2" authorize.delegates (approveAs "CAROL" "" ""), .write 1, .write 0]

theorem authorize_approved_by_quorum :
    ∃ b, exec (ballotStep asciiLib authorize "wf-1" "wf-1:authorize")
        { store := { requests := [firstRequest authorize] } } bobAndCarol = some b ∧
      ∃ answers, answers.Sublist b.answers ∧ Quorum asciiLib authorize answers := by
  have hrun := exec_get (by decide +kernel : (exec
    (ballotStep asciiLib authorize "wf-1" "wf-1:authorize")
    { store := { requests := [firstRequest authorize] } } bobAndCarol).isSome = true)
  have hvalid : validateApprovalStep asciiLib "" authorize = [] := by decide +kernel
  have hcreate : (([] : List Store.Op).foldl apply {}).createApprovalRequest
      (requestFor "wf-1" 0 authorize) =
        .ok ({ requests := [firstRequest authorize] }, firstRequest authorize) := rfl
  refine ⟨_, hrun, (approved_by_quorum asciiLib hvalid (by decide) (.inr (by decide +kernel)) hcreate
    (fun _ h => absurd h not_mem_nil) (fun _ h => absurd h not_mem_nil) hrun mem_cons_self rfl ?_).1⟩
  decide +kernel

/-- One name in two spellings is the delegate of both approvers. -/
def twoSpellings : ApprovalStep where
  id := "release"
  message := "Approve the production release."
  approvers := ["alice", "bob"]
  requiredApprovals := 2
  delegates := [("alice", ["carol"]), ("bob", ["Carol"])]

/-- Carol answers for each of them. -/
def carolTwice : List BallotEvent :=
  [.post .respond "" twoSpellings.delegates (approveAs "carol" "alice" "k1"), .write 0,
   .post .respond "" twoSpellings.delegates (approveAs "carol" "bob" "k2"), .write 0]

/-- The step is valid and its request needs two approvals, and one person gives both. -/
theorem twoSpellings_approved_by_one :
    validateApprovalStep asciiLib "" twoSpellings = [] ∧ twoSpellings.quorum = 2 ∧
    ∃ b, exec (ballotStep asciiLib twoSpellings "wf-1" "wf-1:release")
        { store := { requests := [firstRequest twoSpellings] } } carolTwice = some b ∧
      (∃ r ∈ b.store.requests, r.id = "wf-1:release" ∧ r.status = .approved) ∧
      ¬ ∃ answers, answers.Sublist b.answers ∧ Quorum asciiLib twoSpellings answers := by
  refine ⟨by decide +kernel, by decide, _, exec_get (by decide +kernel),
    ⟨_, mem_cons_self, by decide +kernel, by decide +kernel⟩, ?_⟩
  rintro ⟨answers, hsub, hquorum⟩
  have hpeople := hquorum.people
  rw [hsub.eq_of_length (by rw [hquorum.length]; decide +kernel)] at hpeople
  exact absurd hpeople (by decide +kernel)

end Apiary.Approval
