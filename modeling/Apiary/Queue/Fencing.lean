import Apiary.Queue.Leases

/-!
# Fencing and cancellation

What no later transaction can undo: the state a job ended in, and a request to cancel it.
A worker that lost its lease is fenced off by the attempt id and the token, which the
columns of the job must hold for a heartbeat or a finish to do anything.
-/

namespace Apiary.Queue

open Table Machine

variable {j : Job} {p : Job → Bool} {f : Job → Job} {state : JobState} {jobs : List Job}
  {jobID attemptID token : String}

/-- What holds between a row and any later version of it. -/
structure Evolves (j j' : Job) : Prop where
  id : j'.id = j.id
  terminal : j.state.isTerminal = true → j'.state = j.state
  canceled : j.cancelRequested = true → j'.cancelRequested = true

theorem Evolves.refl (j : Job) : Evolves j j := ⟨rfl, fun _ => rfl, fun h => h⟩

theorem Evolves.trans {j' j'' : Job} (h : Evolves j j') (h' : Evolves j' j'') : Evolves j j'' where
  id := h'.id.trans h.id
  terminal hterminal := by
    have hsame := h.terminal hterminal
    exact (h'.terminal (hsame ▸ hterminal)).trans hsame
  canceled hcanceled := h'.canceled (h.canceled hcanceled)

/-- No row is lost, and each one evolves. -/
def JobsEvolve (q q' : Queue) : Prop := ∀ j ∈ q.jobs, ∃ j' ∈ q'.jobs, Evolves j j'

/-- A job whose cancellation was requested is leased or over. -/
def CancelOk (q : Queue) : Prop :=
  ∀ j ∈ q.jobs, j.cancelRequested = true → j.state = .leased ∨ j.state = .canceled

section Steps

variable {q q' q'' : Queue}

theorem JobsEvolve.refl (q : Queue) : JobsEvolve q q := fun j hj => ⟨j, hj, .refl j⟩

theorem JobsEvolve.trans (h : JobsEvolve q q') (h' : JobsEvolve q' q'') : JobsEvolve q q'' := by
  intro j hj
  obtain ⟨j', hj', hevolves⟩ := h j hj
  obtain ⟨j'', hj'', hevolves'⟩ := h' j' hj'
  exact ⟨j'', hj'', hevolves.trans hevolves'⟩

/-- An update of open jobs that keeps their requests. -/
theorem jobsEvolve_update (hjobs : q'.jobs = update p f q.jobs) (hid : ∀ j, (f j).id = j.id)
    (hopen : ∀ j ∈ q.jobs, p j = true → j.state.isTerminal = true → (f j).state = j.state)
    (hcancel : ∀ j, j.cancelRequested = true → (f j).cancelRequested = true) : JobsEvolve q q' := by
  intro j hj
  refine ⟨if p j then f j else j, hjobs ▸ mem_update.mpr ⟨j, hj, rfl⟩, ?_⟩
  split
  · exact ⟨hid j, hopen j hj ‹_›, hcancel j⟩
  · exact .refl j

theorem cancelOk_update (hq : CancelOk q) (hjobs : q'.jobs = update p f q.jobs)
    (hf : ∀ j ∈ q.jobs, p j = true → (f j).cancelRequested = true →
      (f j).state = .leased ∨ (f j).state = .canceled) : CancelOk q' := by
  rw [CancelOk, hjobs]
  exact forall_update hf hq

variable (hq : LeaseOk q)

include hq

theorem Ended.evolves (hend : Ended q j state q') : JobsEvolve q q' := by
  obtain ⟨now, available, attemptState, explanation, pj, pa, hjob, hleased, -, -, -, -, hpj, -⟩ :=
    hend
  refine jobsEvolve_update rfl (fun _ => rfl) ?_ fun _ h => h
  intro x hx hp hterminal
  rw [eq_of_key hq.jobIDs hx hjob ((hpj x hx).mp hp), hleased] at hterminal
  cases hterminal

theorem Ended.cancelOk (hcancel : CancelOk q) (hend : Ended q j state q') : CancelOk q' := by
  obtain ⟨now, available, attemptState, explanation, pj, pa, hjob, -, -, hcanceled, -, -, hpj, -⟩ :=
    hend
  refine cancelOk_update hcancel rfl ?_
  intro x hx hp hrequested
  have heq := eq_of_key hq.jobIDs hx hjob ((hpj x hx).mp hp)
  exact .inr (hcanceled.mpr (heq ▸ hrequested))

theorem EndsAll.evolves (hends : EndsAll q jobs q') : JobsEvolve q q' := by
  induction hends with
  | nil q => exact .refl q
  | cons state hend hrest ih => exact (hend.evolves hq).trans (ih (hq.ended hend))

theorem EndsAll.cancelOk (hends : EndsAll q jobs q') (hcancel : CancelOk q) : CancelOk q' := by
  induction hends with
  | nil => exact hcancel
  | cons state hend hrest ih => exact ih (hq.ended hend) (hend.cancelOk hq hcancel)

variable {now : ℕ} {op : Operation}

omit hq in
theorem isOpen_not_terminal (hopen : j.isOpen = true) : j.state.isTerminal = false := by
  have hstates : j.state = .queued ∨ j.state = .leased := by simpa [Job.isOpen] using hopen
  rcases hstates with h | h <;> simp [h, JobState.isTerminal]

theorem Changed.evolves (hchanged : Changed q now op q') : JobsEvolve q q' := by
  cases hchanged with
  | unchanged | registered | reregistered | refreshed => exact .refl q
  | enqueued => exact fun j hj => ⟨j, List.mem_append_left _ hj, .refl j⟩
  | claimed =>
    refine jobsEvolve_update rfl (fun _ => rfl) ?_ fun _ h => h
    intro j hj hp hterminal
    have hqueued : j.state = .queued := by
      simp only [Bool.and_eq_true, decide_eq_true_eq] at hp
      exact hp.1.2
    rw [hqueued] at hterminal
    cases hterminal
  | extended => exact jobsEvolve_update rfl (fun _ => rfl) (fun _ _ _ _ => rfl) fun _ h => h
  | finished jobID attemptID token result j q' hheld hend => exact hend.evolves hq
  | canceled op p hop hopen =>
    refine jobsEvolve_update rfl (fun _ => rfl) ?_ fun _ _ => rfl
    intro j hj hp hterminal
    exact absurd hterminal (by simp [isOpen_not_terminal (hopen j hp)])
  | released => exact jobsEvolve_update rfl (fun _ => rfl) (fun _ _ _ _ => rfl) fun _ h => h
  | reclaimed cutoff q' hends => exact hends.evolves hq

theorem CancelOk.step (hcancel : CancelOk q) (hchanged : Changed q now op q') : CancelOk q' := by
  cases hchanged with
  | unchanged | registered | reregistered | refreshed => exact hcancel
  | enqueued =>
    exact forall_insert hcancel nofun
  | claimed => exact cancelOk_update hcancel rfl fun _ _ _ _ => .inl rfl
  | extended | released =>
    exact cancelOk_update hcancel rfl fun x hx _ hrequested => hcancel x hx hrequested
  | finished jobID attemptID token result j q' hheld hend => exact hend.cancelOk hq hcancel
  | canceled op p hop hopen =>
    refine cancelOk_update hcancel rfl ?_
    intro j hj hp _
    have hstates : j.state = .queued ∨ j.state = .leased := by simpa [Job.isOpen] using hopen j hp
    rcases hstates with h | h
    · exact .inr (by simp [cancelJob, h])
    · exact .inl (by simp [cancelJob, h])
  | reclaimed cutoff q' hends => exact hends.cancelOk hq hcancel

end Steps

/-! ## Whole runs -/

/-- The invariant of a run together with what became of the rows it started from. -/
structure RunsFrom (q₀ q : Queue) : Prop where
  leases : LeaseOk q
  cancels : CancelOk q
  evolves : JobsEvolve q₀ q

section Runs

variable {q q' : Queue}

theorem RunsFrom.run {q₀ : Queue} {es : List (ℕ × Operation)} (hq : RunsFrom q₀ q)
    (hrun : exec queueStep q es = some q') : RunsFrom q₀ q' := by
  refine exec_invariant_of_step ?_ hq hrun
  intro q ev q' hq hstep
  have hchanged := hq.leases.changed hstep
  exact ⟨hq.leases.step hchanged, hq.cancels.step hq.leases hchanged,
    hq.evolves.trans (hchanged.evolves hq.leases)⟩

theorem runsFrom_empty : RunsFrom {} {} :=
  ⟨leaseOk_empty, fun _ hj => absurd hj List.not_mem_nil, .refl _⟩

/-- Only the current lease can be extended or finished. -/
theorem stale_refused (hstale : ∀ j ∈ q.jobs, Job.leasedAs jobID attemptID token j = false)
    (now extension : ℕ) (result : FinishResult) :
    q.heartbeat now jobID attemptID token extension = .error .staleClaim ∧
      q.finish now jobID attemptID token result = .error .staleClaim := by
  have hnone : q.jobs.find? (Job.leasedAs jobID attemptID token) = none :=
    List.find?_eq_none.mpr fun j hj => by simp [hstale j hj]
  simp only [Queue.heartbeat, Queue.finish, hnone, and_true]
  split <;> rfl

theorem claim_not_canceled (hq : LeaseOk q) {now : ℕ} {request : ClaimRequest} {out : Queue × Job}
    (hclaim : q.claim now attemptID token request = .ok out) (hj : j ∈ q.jobs)
    (hrequested : j.cancelRequested = true) : out.2.id ≠ j.id := by
  obtain ⟨worker, hclaimed, -⟩ := claim_spec hclaim
  intro hsame
  have heq : out.2 = j := eq_of_key hq.jobIDs hclaimed.listed hj hsame
  exact absurd (heq ▸ hclaimed.not_canceled) (by simp [hrequested])

theorem requestCancel_marks {now : ℕ} (hrequest : q.requestCancel now jobID = .ok q') :
    ∃ j ∈ q'.jobs, j.id = jobID ∧ j.cancelRequested = true := by
  simp only [Queue.requestCancel] at hrequest
  split_ifs at hrequest with hany
  rw [Except.ok.injEq] at hrequest
  obtain ⟨j, hj, hhits⟩ := List.any_eq_true.mp hany
  refine ⟨cancelJob now j, ?_, ?_, rfl⟩
  · rw [← hrequest]
    exact mem_update.mpr ⟨j, hj, if_pos hhits⟩
  · exact of_decide_eq_true (Bool.and_eq_true_iff.mp hhits).1

/-- A cancel of a workflow of a task marks each of its open jobs. -/
theorem requestCancelFor_marks (now : ℕ) (hj : j ∈ q.jobs) (hopen : j.isOpen = true)
    (htask : j.taskID ≠ "") (hworkflow : j.workflowID ≠ "") :
    ∃ j' ∈ (q.requestCancelFor now j.taskID j.workflowID).jobs,
      j'.id = j.id ∧ j'.cancelRequested = true := by
  refine ⟨cancelJob now j, mem_update.mpr ⟨j, hj, if_pos ?_⟩, rfl, rfl⟩
  simp [hopen, htask, hworkflow]

/-- From every reachable state on: a job that is over stays as it ended, whoever does not
hold the current lease is refused and changes nothing, and a job whose cancellation was
requested is never queued or claimed again and ends canceled. -/
theorem settled_and_canceled_jobs_stay {es later : List (ℕ × Operation)}
    (hrun : exec queueStep {} es = some q)
    (hlater : exec queueStep q later = some q') :
    (∀ j ∈ q.jobs, j.state.isTerminal = true → ∃ j' ∈ q'.jobs, j'.id = j.id ∧ j'.state = j.state) ∧
      (∀ jobID attemptID token, (∀ j ∈ q'.jobs, Job.leasedAs jobID attemptID token j = false) →
        ∀ now extension result,
          q'.heartbeat now jobID attemptID token extension = .error .staleClaim ∧
          q'.finish now jobID attemptID token result = .error .staleClaim ∧
          queueStep q' (now, .heartbeat jobID attemptID token extension) = some q' ∧
          queueStep q' (now, .finish jobID attemptID token result) = some q') ∧
      (∀ now jobID q₁, q.requestCancel now jobID = .ok q₁ →
        ∃ j ∈ q₁.jobs, j.id = jobID ∧ j.cancelRequested = true) ∧
      (∀ now, ∀ j ∈ q.jobs, j.isOpen = true → j.taskID ≠ "" → j.workflowID ≠ "" →
        ∃ j' ∈ (q.requestCancelFor now j.taskID j.workflowID).jobs,
          j'.id = j.id ∧ j'.cancelRequested = true) ∧
      ∀ j ∈ q.jobs, j.cancelRequested = true →
        (∃ j' ∈ q'.jobs, j'.id = j.id ∧ j'.cancelRequested = true ∧
          (j'.state = .leased ∨ j'.state = .canceled)) ∧
        ∀ now attemptID token request out, q'.claim now attemptID token request = .ok out →
          out.2.id ≠ j.id := by
  have hq := runsFrom_empty.run hrun
  have hq' := RunsFrom.run ⟨hq.leases, hq.cancels, .refl q⟩ hlater
  refine ⟨?_, ?_, fun now jobID q₁ hrequest => requestCancel_marks hrequest,
    fun now j => requestCancelFor_marks now, ?_⟩
  · intro j hj hterminal
    obtain ⟨j', hj', hevolves⟩ := hq'.evolves j hj
    exact ⟨j', hj', hevolves.id, hevolves.terminal hterminal⟩
  · intro jobID attemptID token hstale now extension result
    obtain ⟨hheartbeat, hfinish⟩ := stale_refused hstale now extension result
    refine ⟨hheartbeat, hfinish, ?_, ?_⟩
    · simp only [queueStep, Queue.apply, hheartbeat, Except.map]
    · simp only [queueStep, Queue.apply, hfinish]
  · intro j hj hrequested
    obtain ⟨j', hj', hevolves⟩ := hq'.evolves j hj
    have hrequested' := hevolves.canceled hrequested
    refine ⟨⟨j', hj', hevolves.id, hrequested', hq'.cancels j' hj' hrequested'⟩, ?_⟩
    intro now attemptID token request out hclaim
    exact hevolves.id ▸ claim_not_canceled hq'.leases hclaim hj' hrequested'

end Runs

/-- The build is canceled while its worker has it; the worker then reports success. -/
def buildLeased : List (ℕ × Operation) :=
  [(1, .registerWorker { id := "w1" }), (1, .enqueue "job-1" true buildJob),
   (2, .claim "attempt-1" "claim-1" (request "w1")), (3, .requestCancel "build")]

def buildReported : List (ℕ × Operation) :=
  [(4, .finish "build" "attempt-1" "claim-1" { success := true })]

/-- The report of the canceled build ends it as canceled, and no claim gets it again. -/
theorem build_canceled_not_claimed : ∃ q q', exec queueStep {} buildLeased = some q ∧
      exec queueStep q buildReported = some q' ∧
      (∃ j' ∈ q'.jobs, j'.id = "build" ∧ j'.state = .canceled) ∧
      ∀ now attemptID token request out, q'.claim now attemptID token request = .ok out →
        out.2.id ≠ "build" := by
  have hrun := exec_get (by decide : (exec queueStep {} buildLeased).isSome = true)
  refine ⟨_, _, hrun, exec_get (by decide), by decide, ?_⟩
  have hstays := (settled_and_canceled_jobs_stay hrun (exec_get (by decide :
    (exec queueStep _ buildReported).isSome = true))).2.2.2.2
  exact (hstays _ List.mem_cons_self rfl).2

end Apiary.Queue
