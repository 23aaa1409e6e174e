import Apiary.Approval.GateSteps
import Apiary.Approval.Tables

/-!
# Decisions by the source

`ResolveApproval` answers on behalf of a comment, label or state change at the
source.  Its idempotency key names the instance and the decision but not the
request, and keys are unique over all responses, so it can record each decision
once in the life of an instance.
-/

namespace Apiary.Approval

open Config Workflow List Option Function Machine GateState

variable {store : Store} {instanceID : String}

/-- What holds in every run, guarded or not. -/
structure Grounded (s : GateState) : Prop where
  wellFormed : WellFormed s.drive
  held : s.held = .parked → s.drive.phase = .parked
  store : StoreOk s.store

section Steps

variable {e : Engine} {s t : GateState} {i : ℕ} {a : Act}

theorem Grounded.acted (hs : Grounded s) (hacted : Acted e s i a t) : Grounded t := by
  cases hacted with
  | moved | waitMoved => exact ⟨hs.wellFormed, hs.held, hs.store⟩
  | responded _ _ _ _ hanswered | resolved _ _ _ _ hanswered =>
    exact ⟨hs.wellFormed, hs.held, hs.store.answered hanswered⟩
  | escalated request => exact ⟨hs.wellFormed, hs.held, hs.store.apply (.escalate request)⟩
  | expired request => exact ⟨hs.wellFormed, hs.held, hs.store.apply (.timeOut request)⟩
  | advanced request response d hnext hhandler hheld hstep =>
    exact ⟨hs.wellFormed.step hstep, by simp, hs.store⟩
  | woken d hhandler hheld hstep => exact ⟨hs.wellFormed.step hstep, by simp, hs.store⟩

theorem Grounded.looped (hs : Grounded s) {ev : Event} (hlooped : Looped e s ev t) :
    Grounded t := by
  cases hlooped with
  | move ev d clock hheld hclock hfrom hwellFormed =>
    exact ⟨hwellFormed, fun hparked => (nomatch hheld.symm.trans hparked), hs.store⟩
  | park now wr hheld hclock hphase hnone =>
    have hwellFormed := hs.wellFormed.parked now hphase hnone
    have hdriving : s.held = .parked → (s.drive.park now wr).phase = .parked := fun _ => rfl
    rw [opened]
    split
    · split
      · rename_i hcreate
        exact ⟨hwellFormed, hdriving, hs.store.created (createApprovalRequest_cases hcreate)⟩
      · exact ⟨hwellFormed, hdriving, hs.store⟩
    · exact ⟨hwellFormed, hdriving, hs.store⟩

theorem Grounded.step (hs : Grounded s) {ev : GateEvent} (hstep : gateStep e s ev = some t) :
    Grounded t := by
  cases ev with
  | loop => exact hs.looped (loop_cases hs.wellFormed hstep)
  | settle =>
    rw [gateStep, settle] at hstep
    split_ifs at hstep
    split at hstep
    · rename_i hphase
      exact some.inj hstep ▸ ⟨hs.wellFormed, fun _ => hphase, hs.store⟩
    · exact some.inj hstep ▸ ⟨hs.wellFormed, by simp, hs.store⟩
    · cases hstep
  | respond =>
    rw [gateStep, respond] at hstep
    split at hstep
    · cases hstep
    · split_ifs at hstep
      exact some.inj hstep ▸ ⟨hs.wellFormed, hs.held, hs.store⟩
  | poll | pollWait =>
    rw [gateStep, ite_none_right_eq_some, some.injEq] at hstep
    exact hstep.2 ▸ ⟨hs.wellFormed, hs.held, hs.store⟩
  | act => exact hs.acted (act_cases hstep)
  | elsewhere op =>
    rw [gateStep, ite_none_right_eq_some, some.injEq] at hstep
    exact hstep.2 ▸ ⟨hs.wellFormed, hs.held, hs.store.apply op⟩

end Steps

/-! ## One decision -/

/-- The rest of a `ResolveApproval` call of the goroutine `i`: it reads the newest
request, answers it and claims the run. -/
def resolveApproval (e : Engine) (s : GateState) (i : ℕ) : Option GateState :=
  exec (gateStep e) s (List.replicate 3 (.act i .next))

/-- The call resolved `request` as decided and advanced the park it belongs to. -/
def Resolves (s t : GateState) (request : String) (approve : Bool) : Prop :=
  (∃ r ∈ t.store.requests, r.id = request ∧ r.status = if approve then .approved else .rejected) ∧
  t.held = .driving ∧ t.applied = ⟨request, some request⟩ :: s.applied

/-- No response has been recorded under the key of this decision. -/
def keyUnused (store : Store) (instanceID : String) (approve : Bool) : Prop :=
  ∀ row ∈ store.responses, row.idempotencyKey ≠ (sourceResponse instanceID approve).idempotencyKey

section Decision

variable {e : Engine} {s t : GateState} {i : ℕ} {approve : Bool} {r : ApprovalRequest}

theorem sourceResponse_rejects (instanceID : String) (approve : Bool) :
    (sourceResponse instanceID approve).rejects = !approve := by
  cases approve with
  | false =>
    change (equalFold "reject" "reject" || equalFold "reject" "rejected") = true
    decide
  | true =>
    change (equalFold "approve" "reject" || equalFold "approve" "rejected") = false
    decide

theorem sourceResponse_status (instanceID : String) (approve : Bool) :
    (sourceResponse instanceID approve).status = if approve then .approved else .rejected := by
  rw [ApprovalResponse.status, sourceResponse_rejects]
  cases approve <;> rfl

theorem sourceResponse_key_ne (instanceID : String) (approve : Bool) :
    (sourceResponse instanceID approve).idempotencyKey ≠ "" := by
  intro hempty
  have hlength := congrArg String.length hempty
  simp [sourceResponse, String.length_append] at hlength

/-- An open request that one approval decides is resolved by a response under an
unused key. -/
theorem resolve_of_unused (hstore : StoreOk store) (hr : r ∈ store.requests)
    (hopen : r.status.isOpen = true) (hone : r.requiredApprovals ≤ 1)
    (hunused : keyUnused store instanceID approve) :
    ∃ out, store.resolveApprovalRequest r.id (sourceResponse instanceID approve) = .ok out ∧
      out.2.2 = true ∧ ∃ r' ∈ out.1.requests, r'.id = r.id ∧
        r'.status = if approve then .approved else .rejected := by
  have hfree : store.conflicts r.id (sourceResponse instanceID approve) = false := by
    rw [Store.conflicts, List.any_eq_false]
    intro row hrow
    simp [hunused row hrow, hstore.unanswered hr hopen hone row hrow]
  have hdecides : ((sourceResponse instanceID approve).rejects || decide (r.requiredApprovals ≤
        (store.record r.id (sourceResponse instanceID approve)).countApprovals r.id)) = true := by
    rw [sourceResponse_rejects, countApprovals_record]
    cases approve with
    | false => rfl
    | true =>
      simp only [sourceResponse_status, if_true, decide_true, Bool.and_self, Bool.not_true, Bool.false_or,
        decide_eq_true_eq]
      omega
  let resolved := (store.record r.id (sourceResponse instanceID approve)).updateRequest r.id
    (Store.resolution (sourceResponse instanceID approve))
  refine ⟨(resolved, resolved.getApprovalRequest r.id, true), ?_, rfl, ?_⟩
  · rw [Store.resolveApprovalRequest, if_neg (sourceResponse_key_ne instanceID approve),
      getApprovalRequest_of_mem hstore.ids hr]
    dsimp only
    rw [if_neg (by simp [hopen, hfree]), if_pos hdecides]
  · refine ⟨Store.resolution (sourceResponse instanceID approve) r, ?_, ?_, ?_⟩
    · exact List.mem_map.mpr ⟨r, hr, if_pos rfl⟩
    · exact (resolution_evolves _ r).id
    · rw [Store.resolution, if_pos hopen]
      exact sourceResponse_status instanceID approve

/-- The claim that ends a successful call. -/
theorem advance_parked (hphase : s.drive.phase = .parked) (hheld : s.held = .parked)
    (request : Option String) (response : ApprovalResponse) :
    ∃ d, s.advance e i request response = some { s with
        drive := d
        held := .driving
        handlers := update s.handlers i .driving
        parkRequest := none
        applied := (request.toList.map fun r => ⟨r, s.parkRequest⟩) ++ s.applied } := by
  obtain ⟨d, hd⟩ : ∃ d, step e s.drive
      (.resolve (!response.rejects) (approvalMemory response)) = some d := by
    rw [step, hphase]
    exact ⟨_, rfl⟩
  refine ⟨d, ?_⟩
  rw [advance, if_pos hheld, hd]
  rfl

theorem act_advancing {request : Option String} {response : ApprovalResponse}
    (hact : s.act e i .next = some t) (hhandler : s.handlers i = .advancing request response)
    (hphase : s.drive.phase = .parked) (hheld : s.held = .parked) :
    t.handlers i = .driving ∧
      t.applied = (request.toList.map fun r => ⟨r, s.parkRequest⟩) ++ s.applied := by
  obtain ⟨d, hd⟩ := advance_parked (e := e) (i := i) hphase hheld request response
  simp only [act, hhandler] at hact
  rw [hd, some.injEq] at hact
  subst hact
  exact ⟨update_self .., rfl⟩

theorem act_leaving (hact : s.act e i .next = some t) (hhandler : s.handlers i = .leaving) :
    t.applied = s.applied := by
  simp only [act, hhandler, some.injEq] at hact
  subst hact
  rfl

theorem keyUnused_of_adopted (hids : (store.requests.map ApprovalRequest.id).Nodup)
    (hr : r ∈ store.requests) (hopen : r.status.isOpen = true)
    {out : Store × Option ApprovalRequest × Bool}
    (hanswered : Answered store r.id (sourceResponse instanceID approve) out)
    (hadopted : adoptedResponse (sourceResponse instanceID approve) out.2.1 out.2.2 ≠ none) :
    keyUnused store instanceID approve := by
  cases hanswered with
  | refused current hfind =>
    obtain ⟨hcurrent, hid⟩ := getApprovalRequest_mem hfind
    have hsame := eq_of_id hids hcurrent hr hid
    subst hsame
    simp [adoptedResponse, hopen] at hadopted
  | counted current hfind hstillOpen => simp [adoptedResponse, hstillOpen] at hadopted
  | decided current hfind hstillOpen hfree =>
    intro row hrow hkey
    rw [Store.conflicts, List.any_eq_false] at hfree
    have hrow := hfree row hrow
    simp [hkey] at hrow

theorem resolveApproval_eq_some : resolveApproval e s i = some t ↔
      ∃ s₁ s₂, s.act e i .next = some s₁ ∧ s₁.act e i .next = some s₂ ∧
        s₂.act e i .next = some t := by
  rw [resolveApproval, replicate_succ, replicate_succ, replicate_one]
  simp only [exec_cons_eq_some, exec_nil, some.injEq, gateStep]
  constructor
  · rintro ⟨s₁, h₁, s₂, h₂, s₃, h₃, rfl⟩
    exact ⟨s₁, s₂, h₁, h₂, h₃⟩
  · rintro ⟨s₁, s₂, h₁, h₂, h₃⟩
    exact ⟨s₁, h₁, s₂, h₂, t, h₃, rfl⟩

theorem Grounded.resolves (hs : Grounded s) (hhandler : s.handlers i = .deciding approve)
    (hparked : s.held = .parked) (hcurrent : s.parkRequest = some r.id)
    (hr : r ∈ s.store.requests) (hopen : r.status.isOpen = true) (hone : r.requiredApprovals ≤ 1)
    (hnewest : s.newest.map ApprovalRequest.id = some r.id)
    (hunused : keyUnused s.store s.inst approve) :
    ∃ t, resolveApproval e s i = some t ∧ Resolves s t r.id approve := by
  obtain ⟨req, hreq, hid⟩ := map_eq_some_iff.mp hnewest
  obtain ⟨out, hresolve, hwon, hstatus⟩ := resolve_of_unused hs.store hr hopen hone hunused
  let s₁ := s.setHandler i (.resolving r.id approve)
  let s₂ := { s₁ with store := out.1 }.setHandler i
    (.advancing (some r.id) (sourceResponse s.inst approve))
  have h₁ : s.act e i .next = some s₁ := by
    simp [act, hhandler, hreq, hid, s₁]
  have h₂ : s₁.act e i .next = some s₂ := by
    have hat : s₁.handlers i = .resolving r.id approve := update_self ..
    have hinst : s₁.inst = s.inst := rfl
    have hstore : s₁.store = s.store := rfl
    simp [act, hat, hinst, hstore, hresolve, adoptedResponse, hwon, s₂]
  have hat : s₂.handlers i = .advancing (some r.id) (sourceResponse s.inst approve) :=
    update_self ..
  obtain ⟨d, hd⟩ := advance_parked (e := e) (i := i) (s := s₂) (hs.held hparked) hparked
    (some r.id) (sourceResponse s.inst approve)
  have h₃ : s₂.act e i .next = s₂.advance e i (some r.id) (sourceResponse s.inst approve) := by
    simp only [act, hat]
  rw [hd] at h₃
  refine ⟨_, resolveApproval_eq_some.mpr ⟨s₁, s₂, h₁, h₂, h₃⟩, hstatus, rfl, ?_⟩
  change ⟨r.id, s.parkRequest⟩ :: s.applied = _
  rw [hcurrent]

theorem Grounded.of_resolves (hs : Grounded s) (hhandler : s.handlers i = .deciding approve)
    (hparked : s.held = .parked) (hr : r ∈ s.store.requests) (hopen : r.status.isOpen = true)
    (hcall : resolveApproval e s i = some t) (hresolves : Resolves s t r.id approve) :
    s.newest.map ApprovalRequest.id = some r.id ∧ keyUnused s.store s.inst approve := by
  obtain ⟨s₁, s₂, h₁, h₂, h₃⟩ := resolveApproval_eq_some.mp hcall
  have hgrew : t.applied ≠ s.applied := by
    rw [hresolves.2.2]
    simp
  simp only [act, hhandler] at h₁
  split at h₁ <;> rw [some.injEq] at h₁ <;> subst h₁
  · -- without a request the second step claims the run and there is no third
    have hclaimed := act_advancing h₂ (update_self ..) (hs.held hparked) hparked
    simp [act, hclaimed.1] at h₃
  · rename_i req hnewest
    have hat : (s.setHandler i (.resolving req.id approve)).handlers i =
        .resolving req.id approve := update_self ..
    simp only [act, hat] at h₂
    split at h₂ <;> rw [some.injEq] at h₂ <;> subst h₂
    · have hsame := act_leaving h₃ (update_self ..)
      exact absurd hsame hgrew
    · rename_i out hresolve
      change s.store.resolveApprovalRequest req.id (sourceResponse s.inst approve) = _ at hresolve
      have hinst : (s.setHandler i (.resolving req.id approve)).inst = s.inst := rfl
      rw [hinst] at h₃
      cases hadopted : adoptedResponse (sourceResponse s.inst approve) out.2.1 out.2.2 with
      | none =>
        rw [hadopted] at h₃
        have hsame := act_leaving h₃ (update_self ..)
        exact absurd hsame hgrew
      | some =>
        rw [hadopted] at h₃
        have hclaimed := act_advancing h₃ (update_self ..) (hs.held hparked) hparked
        have hid : req.id = r.id := by
          have happlied := hclaimed.2.symm.trans hresolves.2.2
          simp only [toList_some, map_cons, map_nil, cons_append,
            nil_append, List.cons.injEq, Applied.mk.injEq] at happlied
          exact happlied.1.1
        rw [hid] at hresolve
        refine ⟨by rw [hnewest, map_some, hid], ?_⟩
        exact keyUnused_of_adopted hs.store.ids hr hopen (resolveApprovalRequest_cases hresolve)
          (by simp [hadopted])

end Decision

/-- In every state a run of an instance reaches, a source decision resolves the open
request of the current park and advances the run if and only if that request is the
instance's newest and no earlier decision of the instance used the same key. -/
theorem source_decision_resolves_iff (e : Engine) {d : DriveState} (hinit : Initial d) {clock : ℕ}
    {es : List GateEvent} {s : GateState}
    (hrun : exec (gateStep e) { drive := d, clock := clock } es = some s)
    {i : ℕ} {approve : Bool} {r : ApprovalRequest} (hhandler : s.handlers i = .deciding approve)
    (hparked : s.held = .parked) (hcurrent : s.parkRequest = some r.id)
    (hr : r ∈ s.store.requests) (hopen : r.status.isOpen = true)
    (hone : r.requiredApprovals = 1) :
    (∃ t, resolveApproval e s i = some t ∧ Resolves s t r.id approve) ↔
      s.newest.map ApprovalRequest.id = some r.id ∧ keyUnused s.store s.inst approve := by
  have hstart : Grounded { drive := d, clock := clock } :=
    ⟨hinit.started.wellFormed, by simp, storeOk_empty⟩
  have hkept : ∀ (s : GateState) (ev : GateEvent) (t : GateState), Grounded s →
      gateStep e s ev = some t → Grounded t := fun s ev t hs hstep => hs.step hstep
  have hs : Grounded s := exec_invariant_of_step hkept hstart hrun
  constructor
  · rintro ⟨t, hcall, hresolves⟩
    exact hs.of_resolves hhandler hparked hr hopen hcall hresolves
  · rintro ⟨hnewest, hunused⟩
    exact hs.resolves hhandler hparked hcurrent hr hopen (le_of_eq hone) hnewest hunused

/-- Two approvals that a signal at the source decides. -/
def twoReviews : WorkflowConfig where
  id := "two-reviews"
  steps :=
    [{ id := "design", type := .approval },
     { id := "release", type := .approval, dependsOn := ["design"] }]

def twoReviewsStart : DriveState := { run := initDAG "wf-1" twoReviews {} [] fun _ => none }

theorem twoReviewsStart_initial : Initial twoReviewsStart := Initial.fresh "wf-1" twoReviews {} [] _

/-- A poll cycle, in the goroutine `i`, reads an approval at the source. -/
def approvedAtSource (i : ℕ) : List GateEvent :=
  [.poll, .act i .next, .act i .next, .act i .next, .act i (.decide (some true))]

/-- The first approval is decided at the source; the run goes on to the second, which
the next poll cycle finds approved too. -/
def approvedTwice : List GateEvent :=
  toNextPark ++ approvedAtSource 0 ++ List.replicate 3 (.act 0 .next) ++ toNextPark ++
    [.act 0 .next] ++ approvedAtSource 1

def designReview : ApprovalRequest where
  id := "wf-1:design"
  workflowInstanceID := "wf-1"
  stepID := "design"
  requiredApprovals := 1
  attempt := 1

/-- The first approval is resolved: its decision is under an unused key. -/
theorem twoReviews_first_resolves :
    ∃ s, exec (gateStep (plainEngine 1)) { drive := twoReviewsStart }
        (toNextPark ++ approvedAtSource 0) = some s ∧ s.parkRequest = some "wf-1:design" ∧
      ∃ t, resolveApproval (plainEngine 1) s 0 = some t ∧ Resolves s t "wf-1:design" true := by
  have hrun := exec_get (by decide : (exec (gateStep (plainEngine 1)) { drive := twoReviewsStart }
    (toNextPark ++ approvedAtSource 0)).isSome = true)
  refine ⟨_, hrun, rfl, ?_⟩
  apply (source_decision_resolves_iff (plainEngine 1) twoReviewsStart_initial hrun rfl rfl rfl
    (mem_singleton_self designReview) rfl rfl).mpr
  exact ⟨rfl, by rw [keyUnused]; decide⟩

/-- The second approval is open and decided at the source, and the call leaves it open:
the instance's key for an approval was spent on the first. -/
theorem twoReviews_second_unresolved :
    ∃ s, exec (gateStep (plainEngine 1)) { drive := twoReviewsStart } approvedTwice = some s ∧
      s.handlers 1 = .deciding true ∧ s.held = .parked ∧
      (∃ r ∈ s.store.requests, s.parkRequest = some r.id ∧ r.status.isOpen = true ∧
        r.requiredApprovals = 1 ∧
        ¬ ∃ t, resolveApproval (plainEngine 1) s 1 = some t ∧ Resolves s t r.id true) := by
  refine ⟨_, exec_get (by decide), rfl, rfl, _, mem_cons_of_mem _ mem_cons_self, rfl, rfl, rfl, ?_⟩
  rintro ⟨t, hcall, -, hdriving, -⟩
  have hafter := congrArg (Option.map held) hcall
  rw [map_some, hdriving] at hafter
  nomatch hafter

end Apiary.Approval
