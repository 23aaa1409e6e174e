import Apiary.Approval.Tables
import Mathlib.Data.List.Range

/-!
# Histories of the approval tables

The calls of the engine, the daemon's handlers and the reminder loop on the approval
tables, in any order, with what each caller is told.  A visit names its step and leaves
the number of the attempt to the store.  The store hands the gate that is still open to
the next visit, numbers the visits of a step one after the other, and lets every request
be decided, escalated and reminded of at most once.
-/

namespace Apiary.Approval

open List Store

variable {h : History} {r : ApprovalRequest}

/-! ## Calls -/

/-- What a visit to an approval step brings. -/
structure Visit where
  id : String
  workflowInstanceID : String
  stepID : String
  requiredApprovals : ℕ := 0
  createdAt : ℕ := 0

def Visit.request (visit : Visit) : ApprovalRequest where
  id := visit.id
  workflowInstanceID := visit.workflowInstanceID
  stepID := visit.stepID
  requiredApprovals := visit.requiredApprovals
  createdAt := visit.createdAt

inductive Call where
  | create (visit : Visit)
  | resolve (id : String) (response : ApprovalResponse)
  | timeOut (id : String)
  | escalate (id : String)
  | remind (id : String) (now : ℕ)

/-- What a caller can win: to decide a request, by an answer or by its timeout, to escalate
it, or to send its reminder. -/
inductive Prize where
  | decision
  | escalation
  | reminder
  deriving DecidableEq

/-- The tables, the column `reminded_at` of the requests, and what callers were told they
won. -/
structure History where
  store : Store := {}
  remindedAt : String → Option ℕ := fun _ => none
  won : List (Prize × String) := []

/-- An update of the request with this id affects a row. -/
def Store.affects (s : Store) (id : String) (p : ApprovalStatus → Bool) : Bool :=
  s.requests.any fun r => r.id = id && p r.status

namespace History

open List

variable (h : History)

def tell (wins : Bool) (prize : Prize) (id : String) : List (Prize × String) :=
  if wins then (prize, id) :: h.won else h.won

def remindable (id : String) : Bool :=
  h.store.affects id ApprovalStatus.isOpen && (h.remindedAt id).isNone

def call : Call → History
  | .create visit => { h with store := h.store.apply (.create visit.request) }
  | .resolve id response =>
    match h.store.resolveApprovalRequest id response with
    | .error _ => h
    | .ok out => { h with store := out.1, won := h.tell out.2.2 .decision id }
  | .timeOut id =>
    { h with
      store := h.store.markApprovalTimedOut id
      won := h.tell (h.store.affects id ApprovalStatus.isOpen) .decision id }
  | .escalate id =>
    { h with
      store := h.store.escalateApproval id
      won := h.tell (h.store.affects id (· = .pending)) .escalation id }
  | .remind id now =>
    { h with
      remindedAt :=
        if h.remindable id then Function.update h.remindedAt id (some now) else h.remindedAt
      won := h.tell (h.remindable id) .reminder id }

def run (calls : List Call) : History := calls.foldl call h

end History

/-- The transaction behind a call; a reminder changes no column that the others read. -/
def Call.op : Call → Option Store.Op
  | .create visit => some (.create visit.request)
  | .resolve id response => some (.resolve id response)
  | .timeOut id => some (.timeOut id)
  | .escalate id => some (.escalate id)
  | .remind _ _ => none

theorem call_store (h : History) (c : Call) : (h.call c).store = match c.op with
      | none => h.store
      | some op => h.store.apply op := by
  cases c with
  | resolve id response =>
    simp only [History.call, Call.op, apply]
    cases h.store.resolveApprovalRequest id response <;> rfl
  | _ => rfl

/-! ## What a transaction does to a row -/

/-- Once it is not pending any more, a request stays so, and once decided it stays as it
is. -/
structure Advances (r r' : ApprovalRequest) : Prop where
  id : r'.id = r.id
  closed : r.status.isOpen = false → r' = r
  left : r.status ≠ .pending → r'.status ≠ .pending

section Rows

variable {s : Store} {r : ApprovalRequest}

theorem Advances.refl (r : ApprovalRequest) : Advances r r := ⟨rfl, fun _ => rfl, fun h => h⟩

theorem Evolves.advances {r' : ApprovalRequest} (hevolves : Evolves r r')
    (hleft : r.status ≠ .pending → r'.status ≠ .pending) : Advances r r' :=
  ⟨hevolves.id, hevolves.closed, hleft⟩

theorem updateRequest_advances {id : String} {change : ApprovalRequest → ApprovalRequest}
    (hchange : ∀ r, Advances r (change r)) (hr : r ∈ s.requests) :
    ∃ r' ∈ (s.updateRequest id change).requests, Advances r r' := by
  refine ⟨if r.id = id then change r else r, mem_map_of_mem hr, ?_⟩
  split
  · exact hchange r
  · exact Advances.refl r

theorem resolution_advances (response : ApprovalResponse) (r : ApprovalRequest) :
    Advances r (resolution response r) := by
  apply (resolution_evolves response r).advances
  intro hleft
  rw [resolution]
  split
  · simp only [ApprovalResponse.status]
    split <;> simp
  · exact hleft

theorem timedOut_advances (r : ApprovalRequest) :
    Advances r (if r.status.isOpen then { r with status := .timedOut } else r) := by
  apply (timedOut_evolves r).advances
  intro hleft
  split
  · simp
  · exact hleft

theorem escalated_advances (r : ApprovalRequest) :
    Advances r (if r.status = .pending then { r with status := .escalated } else r) := by
  apply (escalated_evolves r).advances
  intro hleft
  rw [if_neg hleft]
  exact hleft

/-- A visit finds the tables as they are or opens a gate where none is open. -/
theorem apply_create_cases (s : Store) (req : ApprovalRequest) : s.apply (.create req) = s ∨
      s.openRequest req.workflowInstanceID req.stepID = none ∧
        s.apply (.create req) = { s with requests := s.requests ++ [s.mint req] } := by
  simp only [apply, createApprovalRequest]
  split
  · rename_i hcreate
    split at hcreate
    · cases hcreate
    · split at hcreate
      · cases hcreate
        exact .inl rfl
      · rename_i hclosed
        split at hcreate
        · cases hcreate
          exact .inl rfl
        · split at hcreate
          · cases hcreate
          · cases hcreate
            exact .inr ⟨hclosed, rfl⟩
  · exact .inl rfl

/-- No operation takes a request back to an earlier status. -/
theorem apply_advances (op : Store.Op) (hr : r ∈ s.requests) :
    ∃ r' ∈ (s.apply op).requests, Advances r r' := by
  have hself : ∃ r' ∈ s.requests, Advances r r' := ⟨r, hr, Advances.refl r⟩
  cases op with
  | create req =>
    rcases apply_create_cases s req with heq | ⟨-, heq⟩
    · rwa [heq]
    · rw [heq]
      exact ⟨r, mem_append_left _ hr, Advances.refl r⟩
  | resolve id response =>
    rw [apply]
    split
    · rename_i hresolve
      cases resolveApprovalRequest_cases hresolve with
      | refused | counted => exact hself
      | decided =>
        have hrecorded : r ∈ (s.record id response).requests := hr
        exact updateRequest_advances (resolution_advances response) hrecorded
    · exact hself
  | timeOut => exact updateRequest_advances timedOut_advances hr
  | escalate => exact updateRequest_advances escalated_advances hr

theorem call_advances (h : History) (c : Call) (hr : r ∈ h.store.requests) :
    ∃ r' ∈ (h.call c).store.requests, Advances r r' := by
  rw [call_store]
  cases c.op with
  | none => exact ⟨r, hr, Advances.refl r⟩
  | some op => exact apply_advances op hr

end Rows

/-! ## Attempts -/

/-- The visits of a step are numbered from one, and at most one of them is open. -/
structure Numbered (rows : List ApprovalRequest) : Prop where
  attempts : rows.map ApprovalRequest.attempt = List.range' 1 rows.length
  single : (rows.countP fun r => r.status.isOpen) ≤ 1

theorem foldr_max_range' (n b : ℕ) : (List.range' 1 n).foldr max b = max n b := by
  induction n generalizing b with
  | zero => simp
  | succ n ih =>
    rw [range'_1_concat, foldr_append, foldr_cons, foldr_nil, ih]
    omega

section Attempts

variable {s t : Store} {instanceID stepID : String}

theorem RequestsEvolve.requestsAt (hevolve : RequestsEvolve s t) (instanceID stepID : String) :
    ∃ change : ApprovalRequest → ApprovalRequest,
      t.requestsAt instanceID stepID = (s.requestsAt instanceID stepID).map change ∧
        ∀ r, Evolves r (change r) := by
  obtain ⟨change, hrequests, hrow⟩ := hevolve
  refine ⟨change, ?_, hrow⟩
  rw [Store.requestsAt, hrequests, filter_map, Store.requestsAt]
  congr 1
  apply filter_congr
  intro r _
  simp [(hrow r).instance_eq, (hrow r).step]

section

variable (hrows : Numbered (s.requestsAt instanceID stepID))

include hrows

theorem Numbered.evolve (hevolve : RequestsEvolve s t) :
    Numbered (t.requestsAt instanceID stepID) := by
  obtain ⟨change, hrequests, hrow⟩ := hevolve.requestsAt instanceID stepID
  rw [hrequests]
  refine ⟨?_, ?_⟩
  · rw [map_map, length_map, ← hrows.attempts]
    apply map_congr_left
    intro r _
    exact (hrow r).attempt
  · rw [countP_map]
    refine (countP_mono_left ?_).trans hrows.single
    intro r _ hopen
    exact (hrow r).isOpen hopen

theorem nextAttempt_eq :
    s.nextAttempt instanceID stepID = (s.requestsAt instanceID stepID).length + 1 := by
  rw [nextAttempt, hrows.attempts, foldr_max_range', Nat.max_zero]

omit hrows in
theorem openRequest_none (hnone : s.openRequest instanceID stepID = none) :
    ((s.requestsAt instanceID stepID).countP fun r => r.status.isOpen) = 0 := by
  rw [countP_eq_zero]
  have hfilter := argmax_eq_none.mp hnone
  exact filter_eq_nil_iff.mp hfilter

/-- A new gate has the next number. -/
theorem Numbered.minted {visit : Visit}
    (hnone : s.openRequest visit.workflowInstanceID visit.stepID = none) :
    Numbered (requestsAt { s with requests := s.requests ++ [s.mint visit.request] }
      instanceID stepID) := by
  have happend : requestsAt { s with requests := s.requests ++ [s.mint visit.request] }
      instanceID stepID = s.requestsAt instanceID stepID ++
        if visit.workflowInstanceID = instanceID && visit.stepID = stepID then
          [s.mint visit.request] else [] := by
    rw [requestsAt, filter_append, filter_singleton, Bool.cond_eq_ite]
    rfl
  rw [happend]
  split_ifs with hat
  · rw [Bool.and_eq_true, decide_eq_true_eq, decide_eq_true_eq] at hat
    obtain ⟨rfl, rfl⟩ := hat
    have hattempt : (s.mint visit.request).attempt =
        (s.requestsAt visit.workflowInstanceID visit.stepID).length + 1 := nextAttempt_eq hrows
    refine ⟨?_, ?_⟩
    · rw [map_append, map_singleton, hrows.attempts, hattempt, length_append,
        length_singleton, range'_1_concat, Nat.add_comm 1]
    · rw [countP_append, openRequest_none hnone, Nat.zero_add]
      exact countP_le_length
  · rwa [append_nil]

end

/-- Every call keeps the numbers of the visits and at most one of them open. -/
theorem Numbered.call
    (hrows : ∀ instanceID stepID, Numbered (h.store.requestsAt instanceID stepID)) (c : Call)
    (instanceID stepID : String) : Numbered ((h.call c).store.requestsAt instanceID stepID) := by
  rw [call_store]
  cases c with
  | create visit =>
    simp only [Call.op]
    rcases apply_create_cases h.store visit.request with heq | ⟨hnone, heq⟩
    · rw [heq]
      exact hrows instanceID stepID
    · rw [heq]
      exact (hrows instanceID stepID).minted hnone
  | resolve =>
    simp only [Call.op, apply]
    split
    · rename_i hresolve
      exact (hrows instanceID stepID).evolve (resolveApprovalRequest_cases hresolve).evolves
    · exact hrows instanceID stepID
  | timeOut id => exact (hrows instanceID stepID).evolve (markApprovalTimedOut_evolves _ id)
  | escalate id => exact (hrows instanceID stepID).evolve (escalateApproval_evolves _ id)
  | remind => exact hrows instanceID stepID

end Attempts

/-! ## Winners -/

/-- The prize of a request is gone. -/
def History.Spent (h : History) : Prize → String → Prop
  | .decision, id => Closed h.store id
  | .escalation, id => ∃ r ∈ h.store.requests, r.id = id ∧ r.status ≠ .pending
  | .reminder, id => (h.remindedAt id).isSome = true

/-- Callers were told of different prizes, and those are gone. -/
structure WonOnce (h : History) : Prop where
  distinct : h.won.Nodup
  spent : ∀ prize id, (prize, id) ∈ h.won → h.Spent prize id

section Winners

variable {h : History} {prize : Prize} {id : String}

/-- A prize that is gone stays so. -/
theorem Spent.call (hspent : h.Spent prize id) (c : Call) : (h.call c).Spent prize id := by
  cases prize with
  | decision =>
    obtain ⟨r, hr, hid, hclosed⟩ := hspent
    obtain ⟨r', hr', hadvances⟩ := call_advances h c hr
    rw [hadvances.closed hclosed] at hr'
    exact ⟨r, hr', hid, hclosed⟩
  | escalation =>
    obtain ⟨r, hr, hid, hleft⟩ := hspent
    obtain ⟨r', hr', hadvances⟩ := call_advances h c hr
    exact ⟨r', hr', hadvances.id.trans hid, hadvances.left hleft⟩
  | reminder =>
    cases c with
    | resolve =>
      simp only [History.Spent, History.call] at hspent ⊢
      split <;> exact hspent
    | remind other =>
      simp only [History.Spent, History.call] at hspent ⊢
      split
      · by_cases heq : id = other
        · rw [heq, Function.update_self]
          rfl
        · rwa [Function.update_of_ne heq]
      · exact hspent
    | _ => exact hspent

/-- A caller is told that it won only for a prize nobody has won. -/
theorem WonOnce.tell (hwon : WonOnce h) {c : Call} (wins : Bool) (prize : Prize) (id : String)
    (hcall : (h.call c).won = h.tell wins prize id) (hids : wins = true → ¬h.Spent prize id)
    (hafter : wins = true → (h.call c).Spent prize id) : WonOnce (h.call c) := by
  have hold : ∀ prize' id', (prize', id') ∈ h.won → (h.call c).Spent prize' id' :=
    fun prize' id' hmem => Spent.call (hwon.spent prize' id' hmem) c
  cases wins with
  | false =>
    have hcall : (h.call c).won = h.won := hcall
    exact ⟨hcall ▸ hwon.distinct, hcall ▸ hold⟩
  | true =>
    have hcall : (h.call c).won = (prize, id) :: h.won := hcall
    refine ⟨?_, ?_⟩
    · rw [hcall, nodup_cons]
      exact ⟨fun hmem => hids rfl (hwon.spent prize id hmem), hwon.distinct⟩
    · intro prize' id' hmem
      rw [hcall] at hmem
      rcases mem_cons.mp hmem with heq | hmem
      · obtain ⟨rfl, rfl⟩ := Prod.mk.inj heq
        exact hafter rfl
      · exact hold prize' id' hmem

theorem affects_iff {p : ApprovalStatus → Bool} :
    h.store.affects id p = true ↔ ∃ r ∈ h.store.requests, r.id = id ∧ p r.status = true := by
  simp [affects]

theorem not_closed_of_open (hids : (h.store.requests.map ApprovalRequest.id).Nodup)
    (hr : r ∈ h.store.requests) (hid : r.id = id) (hopen : r.status.isOpen = true) :
    ¬h.Spent .decision id := by
  rintro ⟨r', hr', hid', hclosed⟩
  rw [eq_of_id hids hr' hr (hid'.trans hid.symm), hopen] at hclosed
  cases hclosed

theorem WonOnce.resolve (hwon : WonOnce h) (hok : StoreOk h.store) (id : String)
    (response : ApprovalResponse) : WonOnce (h.call (.resolve id response)) := by
  cases hresolve : h.store.resolveApprovalRequest id response with
  | error =>
    have hcall : h.call (.resolve id response) = h := by simp only [History.call, hresolve]
    rwa [hcall]
  | ok out =>
    have hcall : h.call (.resolve id response) =
        { h with store := out.1, won := h.tell out.2.2 .decision id } := by
      simp only [History.call, hresolve]
    have hcases := resolveApprovalRequest_cases hresolve
    refine hwon.tell out.2.2 .decision id (by rw [hcall]) ?_ ?_
    · intro hwins
      cases hcases with
      | decided current hfind hopen =>
        obtain ⟨hcurrent, hid⟩ := getApprovalRequest_mem hfind
        exact not_closed_of_open hok.ids hcurrent hid hopen
      | _ => cases hwins
    · intro hwins
      rw [hcall]
      cases hcases with
      | decided current hfind hopen =>
        obtain ⟨hcurrent, rfl⟩ := getApprovalRequest_mem hfind
        refine ⟨resolution response current, ?_, ?_, ?_⟩
        · refine mem_map.mpr ⟨current, hcurrent, if_pos rfl⟩
        · exact (resolution_evolves response current).id
        · rw [resolution, if_pos hopen]
          simp only [ApprovalResponse.status]
          split <;> rfl
      | _ => cases hwins

/-- Every call keeps each prize with one winner at most. -/
theorem WonOnce.call (hwon : WonOnce h) (hok : StoreOk h.store) (c : Call) :
    WonOnce (h.call c) := by
  cases c with
  | create visit => exact hwon.tell false .decision visit.id rfl (by simp) (by simp)
  | resolve id response => exact hwon.resolve hok id response
  | timeOut id =>
    refine hwon.tell _ _ id rfl ?_ ?_
    · intro hwins
      obtain ⟨r, hr, hid, hopen⟩ := affects_iff.mp hwins
      exact not_closed_of_open hok.ids hr hid hopen
    · intro hwins
      obtain ⟨r, hr, hid, hopen⟩ := affects_iff.mp hwins
      refine ⟨{ r with status := .timedOut }, mem_map.mpr ⟨r, hr, ?_⟩, hid, rfl⟩
      rw [if_pos hid]
      exact if_pos hopen
  | escalate id =>
    refine hwon.tell _ _ id rfl ?_ ?_
    · intro hwins
      obtain ⟨r, hr, hid, hpending⟩ := affects_iff.mp hwins
      rintro ⟨r', hr', hid', hleft⟩
      rw [eq_of_id hok.ids hr' hr (hid'.trans hid.symm)] at hleft
      exact hleft (of_decide_eq_true hpending)
    · intro hwins
      obtain ⟨r, hr, hid, hpending⟩ := affects_iff.mp hwins
      refine ⟨{ r with status := .escalated }, mem_map.mpr ⟨r, hr, ?_⟩, hid, by simp⟩
      rw [if_pos hid]
      exact if_pos (of_decide_eq_true hpending)
  | remind id =>
    refine hwon.tell _ _ id rfl ?_ ?_
    · intro hwins hspent
      rw [History.remindable, Bool.and_eq_true, Option.isNone_iff_eq_none] at hwins
      rw [History.Spent, hwins.2] at hspent
      cases hspent
    · intro hwins
      simp only [History.Spent, History.call, hwins, if_true, Function.update_self]
      rfl

end Winners

/-! ## Every history -/

structure Consistent (h : History) : Prop where
  tables : StoreOk h.store
  rows : ∀ instanceID stepID, Numbered (h.store.requestsAt instanceID stepID)
  won : WonOnce h

theorem Consistent.call (hh : Consistent h) (c : Call) : Consistent (h.call c) := by
  refine ⟨?_, Numbered.call hh.rows c, hh.won.call hh.tables c⟩
  rw [call_store]
  cases c.op with
  | none => exact hh.tables
  | some op => exact hh.tables.apply op

/-- Every history of calls is consistent. -/
theorem Consistent.run (hh : Consistent h) (calls : List Call) : Consistent (h.run calls) := by
  induction calls generalizing h with
  | nil => exact hh
  | cons c calls ih => exact ih (hh.call c)

theorem consistent_empty : Consistent {} where
  tables := storeOk_empty
  rows := fun _ _ => ⟨rfl, Nat.zero_le 1⟩
  won := ⟨nodup_nil, fun _ _ hmem => absurd hmem not_mem_nil⟩

/-- A closed request is never written again. -/
theorem run_closed (hr : r ∈ h.store.requests) (hclosed : r.status.isOpen = false)
    (calls : List Call) : r ∈ (h.run calls).store.requests := by
  induction calls generalizing h with
  | nil => exact hr
  | cons c calls ih =>
    obtain ⟨r', hr', hadvances⟩ := call_advances h c hr
    apply ih
    rwa [hadvances.closed hclosed] at hr'

/-- In every history a step of an instance has at most one open request and its requests are
numbered from one, a decided request is the same after any further calls, and no two callers
were told that they won the same. -/
theorem approvals_decided_once (calls later : List Call) : (∀ instanceID stepID,
      ((History.run {} calls).store.requestsAt instanceID stepID).countP
        (fun r => r.status.isOpen) ≤ 1) ∧
    (∀ instanceID stepID,
      ((History.run {} calls).store.requestsAt instanceID stepID).map ApprovalRequest.attempt =
        List.range' 1 ((History.run {} calls).store.requestsAt instanceID stepID).length) ∧
    (∀ r ∈ (History.run {} calls).store.requests, r.status.isOpen = false →
      ((History.run {} calls).run later).store.getApprovalRequest r.id = some r) ∧
    (History.run {} calls).won.Nodup := by
  have hh := consistent_empty.run calls
  refine ⟨fun inst step => (hh.rows inst step).single, fun inst step => (hh.rows inst step).attempts,
    ?_, hh.won.distinct⟩
  intro r hr hclosed
  exact getApprovalRequest_of_mem (hh.run later).tables.ids (run_closed hr hclosed later)

end Apiary.Approval
