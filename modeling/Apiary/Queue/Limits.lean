import Apiary.Queue.Leases

/-!
# Concurrency limits

A policy bounds the leased jobs that share a project, a source, an agent, a runner or a
pool.  Only a claim adds a lease, and it counts the leases in its own transaction.
-/

namespace Apiary.Queue

open Table Machine

variable {policy : ConcurrencyPolicy}

/-- No value has more leases than its positive limit. -/
def WithinLimits (policy : ConcurrencyPolicy) (q : Queue) : Prop :=
  ∀ scope value, value ≠ "" → 0 < policy.limit value scope →
    q.active scope value ≤ policy.limit value scope

section Active

variable {q q' : Queue} (scope : Scope) (value : String)

/-- The end of a lease adds to no count. -/
theorem Ended.active_le {j : Job} {state : JobState} (hend : Ended q j state q') :
    q'.active scope value ≤ q.active scope value := by
  obtain ⟨now, available, attemptState, explanation, pj, pa, -, -, hstate, -, -, -, -, -⟩ := hend
  apply countP_update_le
  intro x _ _ hleased
  exact absurd (of_decide_eq_true (Bool.and_eq_true_iff.mp hleased).1) hstate

theorem EndsAll.active_le {jobs : List Job} (hends : EndsAll q jobs q') :
    q'.active scope value ≤ q.active scope value := by
  induction hends with
  | nil => exact le_rfl
  | cons state hend hrest ih => exact ih.trans (hend.active_le scope value)

theorem active_lease (hq : LeaseOk q) {job : Job} {request : ClaimRequest} {worker : Worker}
    {attemptID : String} (hclaimed : Claimed q attemptID request worker job) (now expires : ℕ)
    (token : String) :
    (q.lease now expires worker attemptID token job).active scope value =
      q.active scope value + if scope.value job = value then 1 else 0 := by
  obtain ⟨before, after, hjobs, hupdated⟩ := lease_jobs hq hclaimed now expires token
  have hvalue : scope.value (leaseJob worker attemptID token expires job) = scope.value job := by
    cases scope <;> rfl
  have hleased : (leaseJob worker attemptID token expires job).state = .leased := rfl
  rw [Queue.active, hupdated, Queue.active, hjobs]
  simp only [List.countP_append, List.countP_cons, hvalue, hleased, hclaimed.queued, decide_true,
    Bool.true_and, decide_eq_true_eq, reduceCtorEq, decide_false, Bool.false_and,
    Bool.false_eq_true, ite_false]
  omega

variable {scope value}

theorem withinPolicy_lt {job : Job} (hwithin : q.withinPolicy policy job = true)
    (hvalue : scope.value job ≠ "") (hlimit : 0 < policy.limit (scope.value job) scope) :
    q.active scope (scope.value job) < policy.limit (scope.value job) scope := by
  have hscope : scope ∈ Scope.all := by cases scope <;> decide
  have hcheck := List.all_eq_true.mp hwithin scope hscope
  simp only [Bool.or_eq_true, decide_eq_true_eq] at hcheck
  rcases hcheck with (hzero | hempty) | hlt
  · omega
  · exact absurd hempty hvalue
  · exact hlt

end Active

theorem WithinLimits.step {q q' : Queue} {now : ℕ} {op : Operation}
    (hlimits : WithinLimits policy q) (hq : LeaseOk q)
    (hpolicy : ∀ attemptID token request, op = .claim attemptID token request →
      request.policy = policy) (hchanged : Changed q now op q') : WithinLimits policy q' := by
  intro scope value hvalue hlimit
  have hbound := hlimits scope value hvalue hlimit
  cases hchanged with
  | unchanged | registered | reregistered | refreshed => exact hbound
  | enqueued => simpa [Queue.active, newJob] using hbound
  | claimed attemptID token request worker job hclaimed =>
    have hused := hpolicy attemptID token request rfl
    rw [active_lease scope value hq hclaimed]
    split_ifs with hsame
    · subst hsame
      have hlt := withinPolicy_lt (hused ▸ hclaimed.policy) hvalue hlimit
      omega
    · exact hbound
  | extended | released =>
    exact (countP_update_le fun x _ _ h => by cases scope <;> exact h).trans hbound
  | finished jobID attemptID token result j q' hheld hend =>
    exact (hend.active_le scope value).trans hbound
  | canceled =>
    refine (countP_update_le fun x _ _ hleased => ?_).trans hbound
    rw [Bool.and_eq_true, decide_eq_true_eq] at hleased
    have hstate : x.state = .leased := by
      by_contra hother
      simp [cancelJob, ite_eq_iff, hother] at hleased
    have hvalue : scope.value x = scope.value (cancelJob now x) := by cases scope <;> rfl
    rw [hstate, hvalue, hleased.2]
    rfl
  | reclaimed cutoff q' hends => exact (hends.active_le scope value).trans hbound

/-- When every claim uses the one policy, the limits hold in every reachable state. -/
theorem leases_within_limits {policy : ConcurrencyPolicy} {q : Queue} {es : List (ℕ × Operation)}
    (hpolicy : ∀ ev ∈ es, ∀ attemptID token request, ev.2 = .claim attemptID token request →
      request.policy = policy)
    (hrun : exec queueStep {} es = some q) {scope : Scope} {value : String}
    (hvalue : value ≠ "") (hlimit : 0 < policy.limit value scope) :
    q.active scope value ≤ policy.limit value scope := by
  have hkept : ∀ q ev q', LeaseOk q ∧ WithinLimits policy q →
      (∀ attemptID token request, ev.2 = Operation.claim attemptID token request →
        request.policy = policy) →
      queueStep q ev = some q' → LeaseOk q' ∧ WithinLimits policy q' := by
    intro q ev q' hq hused hstep
    have hchanged := hq.1.changed hstep
    exact ⟨hq.1.step hchanged, hq.2.step hq.1 hused hchanged⟩
  have hempty : WithinLimits policy {} := fun _ _ _ _ => Nat.zero_le _
  exact (exec_invariant hkept ⟨leaseOk_empty, hempty⟩
    (guarded_of_events hpolicy _) hrun).2 scope value hvalue hlimit

/-! ## A deployer

One deployment at a time, however many workers there are. -/

def deployPolicy : ConcurrencyPolicy where
  defaultAgent := 4
  agents agent := if agent = "deployer" then some 1 else none

def deployRequest (workerID : String) : ClaimRequest :=
  { workerID := workerID, leaseDuration := 10, workerTimeout := 1000, policy := deployPolicy }

/-- Two deployments are queued, and two workers ask for one. -/
def deployTwice : List (ℕ × Operation) :=
  [(1, .registerWorker { id := "w1" }), (1, .registerWorker { id := "w2" }),
   (1, .enqueue "job-1" true { idempotencyKey := "task-1:0:deploy", agentID := "deployer" }),
   (1, .enqueue "job-2" true { idempotencyKey := "task-2:0:deploy", agentID := "deployer" }),
   (2, .claim "attempt-1" "claim-1" (deployRequest "w1")),
   (2, .claim "attempt-2" "claim-2" (deployRequest "w2"))]

theorem deployer_leases_one : ∃ q, exec queueStep {} deployTwice = some q ∧
      q.jobs.map Job.state = [.leased, .queued] ∧ deployPolicy.limit "deployer" .agent = 1 ∧
      q.active .agent "deployer" ≤ 1 := by
  have hpolicy : ∀ ev ∈ deployTwice, ∀ attemptID token request,
      ev.2 = .claim attemptID token request → request.policy = deployPolicy := by
    simp only [deployTwice, List.forall_mem_cons, List.not_mem_nil, false_imp_iff, implies_true,
      reduceCtorEq, Operation.claim.injEq, and_imp, and_true, true_and]
    exact ⟨fun _ _ _ _ _ h => h ▸ rfl, fun _ _ _ _ _ h => h ▸ rfl⟩
  refine ⟨_, exec_get (by decide), by decide, rfl, ?_⟩
  exact leases_within_limits hpolicy (exec_get _) (by decide) (by decide)

end Apiary.Queue
