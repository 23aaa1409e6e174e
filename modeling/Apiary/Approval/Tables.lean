import Apiary.Approval.Store
import Apiary.Core.Table

/-!
# What every history of transactions keeps

Responses name requests that exist, and a request stays open only while it has no
rejection and fewer approvals than it needs.
-/

namespace Apiary.Approval

open List Store

variable {r : ApprovalRequest}

/-- An open request has been approved too few times and never rejected. -/
structure Undecided (s : Store) (r : ApprovalRequest) : Prop where
  approvals : ∀ row ∈ s.responses, row.requestID = r.id → row.decision = .approved
  short : s.countApprovals r.id < r.requiredApprovals

structure StoreOk (s : Store) : Prop where
  ids : (s.requests.map ApprovalRequest.id).Nodup
  known : ∀ row ∈ s.responses, ∃ r ∈ s.requests, r.id = row.requestID
  undecided : ∀ r ∈ s.requests, r.status.isOpen = true → Undecided s r

section Transactions

variable {s t : Store}

theorem storeOk_empty : StoreOk {} := ⟨nodup_nil, by simp, by simp⟩

/-- The rows move on and no response is added. -/
theorem StoreOk.evolve (hs : StoreOk s) (hevolve : RequestsEvolve s t)
    (hresponses : t.responses = s.responses) : StoreOk t := by
  have hcount : ∀ id, t.countApprovals id = s.countApprovals id := by
    intro id
    rw [countApprovals, hresponses]
    rfl
  refine ⟨hevolve.ids.symm ▸ hs.ids, ?_, ?_⟩
  · intro row hrow
    obtain ⟨r, hr, hid⟩ := hs.known row (hresponses ▸ hrow)
    obtain ⟨change, hrequests, hchange⟩ := hevolve
    refine ⟨change r, ?_, (hchange r).id.trans hid⟩
    rw [hrequests]
    exact mem_map_of_mem hr
  · intro r hr hopen
    obtain ⟨old, hold, hevolves⟩ := hevolve.of_mem hr
    have hundecided := hs.undecided old hold (hevolves.isOpen hopen)
    refine ⟨?_, ?_⟩
    · intro row hrow hid
      exact hundecided.approvals row (hresponses ▸ hrow) (hid.trans hevolves.id)
    · rw [hcount, hevolves.id, hevolves.required]
      exact hundecided.short

theorem countApprovals_record (s : Store) (id other : String) (response : ApprovalResponse) :
    (s.record id response).countApprovals other =
      s.countApprovals other + if id = other && response.status = .approved then 1 else 0 := by
  rw [countApprovals, record, countP_append, countP_singleton]
  rfl

theorem Undecided.record (hundecided : Undecided s r) {id : String} (hother : id ≠ r.id)
    (response : ApprovalResponse) : Undecided (s.record id response) r := by
  refine ⟨Table.forall_insert hundecided.approvals fun hid => absurd hid hother, ?_⟩
  rw [countApprovals_record]
  simpa [hother] using hundecided.short

variable (hs : StoreOk s)

include hs

theorem StoreOk.answered {id : String} {response : ApprovalResponse}
    {out : Store × Option ApprovalRequest × Bool} (hanswered : Answered s id response out) :
    StoreOk out.1 := by
  have hknown : ∀ current, s.getApprovalRequest id = some current →
      ∀ row ∈ (s.record id response).responses, ∃ r ∈ s.requests, r.id = row.requestID := by
    exact fun current hfind =>
      Table.forall_insert hs.known ⟨current, getApprovalRequest_mem hfind⟩
  cases hanswered with
  | refused => exact hs
  | counted current hfind hopen hfree hrejects hshort =>
    obtain ⟨hcurrent, hid⟩ := getApprovalRequest_mem hfind
    refine ⟨hs.ids, hknown current hfind, ?_⟩
    intro r hr hropen
    by_cases hsame : id = r.id
    · have heq := eq_of_id hs.ids hr hcurrent (hsame.symm.trans hid.symm)
      subst heq
      refine ⟨Table.forall_insert (hs.undecided r hr hropen).approvals ?_, hsame ▸ hshort⟩
      simp [ApprovalResponse.status, hrejects]
    · exact (hs.undecided r hr hropen).record hsame response
  | decided current hfind =>
    have hevolve := updateRequest_evolves (s.record id response) id (resolution_evolves response)
    refine ⟨hevolve.ids.symm ▸ hs.ids, ?_, ?_⟩
    · intro row hrow
      obtain ⟨r, hr, hrid⟩ := hknown current hfind row hrow
      refine ⟨if r.id = id then resolution response r else r, mem_map_of_mem hr, ?_⟩
      split
      · exact (resolution_evolves response r).id.trans hrid
      · exact hrid
    · intro r hr hropen
      obtain ⟨old, hold, rfl⟩ := mem_map.mp hr
      split_ifs at hropen with hother
      · -- the answered request is closed now
        exfalso
        simp only [resolution, ApprovalResponse.status] at hropen
        split at hropen
        · split at hropen <;> cases hropen
        · exact absurd hropen ‹_›
      · rw [if_neg hother]
        have hrecorded := (hs.undecided old hold hropen).record (Ne.symm hother) response
        exact ⟨hrecorded.approvals, hrecorded.short⟩

theorem StoreOk.created {req : ApprovalRequest} {out : Store × ApprovalRequest}
    (hcreated : Created s req out) : StoreOk out.1 := by
  cases hcreated with
  | reused | kept => exact hs
  | minted hfresh =>
    have hunanswered : ∀ row ∈ s.responses, row.requestID ≠ (s.mint req).id := by
      intro row hrow hid
      obtain ⟨r, hr, hrid⟩ := hs.known row hrow
      exact hfresh r hr (hrid.trans hid)
    refine ⟨Grows.ids (.added _ rfl hfresh) hs.ids, ?_, ?_⟩
    · intro row hrow
      obtain ⟨r, hr, hid⟩ := hs.known row hrow
      exact ⟨r, mem_append_left _ hr, hid⟩
    · refine Table.forall_insert (fun r hold hopen => ?_) fun _ => ?_
      · exact ⟨(hs.undecided r hold hopen).approvals, (hs.undecided r hold hopen).short⟩
      · refine ⟨fun row hrow hid => absurd hid (hunanswered row hrow), ?_⟩
        have hzero : countApprovals { s with requests := s.requests ++ [s.mint req] }
            (s.mint req).id = 0 := by
          rw [countApprovals, countP_eq_zero]
          intro row hrow
          simp [hunanswered row hrow]
        rw [hzero, mint]
        dsimp only
        split <;> omega

theorem StoreOk.apply (op : Store.Op) : StoreOk (s.apply op) := by
  cases op with
  | create =>
    rw [Store.apply]
    split
    · rename_i hcreate
      exact hs.created (createApprovalRequest_cases hcreate)
    · exact hs
  | resolve =>
    rw [Store.apply]
    split
    · rename_i hresolve
      exact hs.answered (resolveApprovalRequest_cases hresolve)
    · exact hs
  | timeOut id => exact hs.evolve (markApprovalTimedOut_evolves s id) rfl
  | escalate id => exact hs.evolve (escalateApproval_evolves s id) rfl

theorem StoreOk.unanswered (hr : r ∈ s.requests) (hopen : r.status.isOpen = true)
    (hone : r.requiredApprovals ≤ 1) : ∀ row ∈ s.responses, row.requestID ≠ r.id := by
  intro row hrow hid
  have hundecided := hs.undecided r hr hopen
  have hpos : 0 < s.countApprovals r.id := by
    refine countP_pos_iff.mpr ⟨row, hrow, ?_⟩
    simp [hid, hundecided.approvals row hrow hid]
  have hshort := hundecided.short
  omega

end Transactions

end Apiary.Approval
