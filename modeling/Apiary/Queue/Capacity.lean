import Apiary.Queue.Leases

/-!
# Worker capacity

A worker's capacity is enforced through a counter in its row.  Registering sets the
counter to zero, while leases of the previous process may still be live; when such a
lease ends later, the counter is decremented for a lease it does not count.

The queue does not keep which leases a worker obtained since it last registered, so the
machine of this module records them beside the tables.
-/

namespace Apiary.Queue

open Table List Machine Function

variable {q' q : Queue} {workers : List Worker} {j : Job} {state : JobState} {attemptID : String}
  {now : ℕ} {worker : Worker}

/-- The tables, and the attempts each worker obtained since it last registered. -/
structure Roster where
  queue : Queue := {}
  fresh : String → List String := fun _ => []

/-- A registration forgets the worker's attempts, and a claim adds one. -/
def Roster.record (s : Roster) (now : ℕ) : Operation → String → List String
  | .registerWorker worker =>
    match s.queue.registerWorker now worker with
    | .ok _ => update s.fresh worker.id []
    | .error _ => s.fresh
  | .claim attemptID token request =>
    match s.queue.claim now attemptID token request with
    | .ok _ => update s.fresh request.workerID (attemptID :: s.fresh request.workerID)
    | .error _ => s.fresh
  | _ => s.fresh

def rosterStep (s : Roster) (ev : ℕ × Operation) : Option Roster :=
  (queueStep s.queue ev).map fun q => { queue := q, fresh := s.record ev.1 ev.2 }

/-- The job is leased to the worker under one of the given attempts. -/
def heldBy (workerID : String) (attemptIDs : List String) (j : Job) : Bool :=
  j.state = .leased && j.leaseWorkerID = some workerID && j.leaseAttemptID.any attemptIDs.contains

/-- The leases a worker obtained since it last registered. -/
def Roster.held (s : Roster) (workerID : String) : ℕ :=
  s.queue.jobs.countP (heldBy workerID (s.fresh workerID))

/-- Those of them that have not run out. -/
def Roster.unexpired (s : Roster) (now : ℕ) (workerID : String) : ℕ :=
  s.queue.jobs.countP fun j =>
    heldBy workerID (s.fresh workerID) j && j.leaseExpiresAt.any fun expires => now < expires

/-- The lease of the job is one that its worker's counter counts, or the counter is at
zero and stays there. -/
def Roster.counts (s : Roster) (j : Job) : Bool :=
  let workerID := j.leaseWorkerID.getD ""
  j.leaseAttemptID.any (s.fresh workerID).contains ||
    s.queue.workers.all fun w => w.id ≠ workerID || w.activeJobs = 0

/-- No lease from before its worker's latest registration ends while the counter counts
later ones. -/
def endsCounted (s : Roster) (ev : ℕ × Operation) : Bool :=
  match ev.2 with
  | .finish jobID attemptID token _ =>
    s.queue.jobs.all fun j => !Job.leasedAs jobID attemptID token j || s.counts j
  | .reclaimExpired cutoff => (s.queue.expiredJobs cutoff).all s.counts
  | _ => true

/-! ## The counter bounds the leases -/

structure CapacityOk (s : Roster) : Prop where
  leases : LeaseOk s.queue
  workerIDs : (s.queue.workers.map Worker.id).Nodup
  counted : ∀ w ∈ s.queue.workers, s.held w.id ≤ w.activeJobs
  bounded : ∀ w ∈ s.queue.workers, w.activeJobs ≤ w.capacity

section Steps

variable {s t : Roster}

variable (hs : CapacityOk s)

include hs

/-- Steps after which no worker holds more and no counter is smaller. -/
theorem CapacityOk.of_workers (hleases : LeaseOk t.queue)
    (hids : (t.queue.workers.map Worker.id).Nodup)
    (hworkers : ∀ w' ∈ t.queue.workers, ∃ w ∈ s.queue.workers, w.id = w'.id ∧
      t.held w'.id + w.activeJobs ≤ s.held w.id + w'.activeJobs ∧ w'.activeJobs ≤ w'.capacity) :
    CapacityOk t := by
  refine ⟨hleases, hids, ?_, ?_⟩
  · intro w' hw'
    obtain ⟨w, hw, -, hheld, -⟩ := hworkers w' hw'
    have hcounted := hs.counted w hw
    omega
  · intro w' hw'
    obtain ⟨w, hw, -, -, hbounded⟩ := hworkers w' hw'
    exact hbounded

theorem CapacityOk.of_jobs (hleases : LeaseOk q') (hworkers : q'.workers = s.queue.workers)
    (hheld : ∀ workerID attemptIDs, q'.jobs.countP (heldBy workerID attemptIDs) ≤
      s.queue.jobs.countP (heldBy workerID attemptIDs)) : CapacityOk { s with queue := q' } := by
  refine hs.of_workers hleases (hworkers ▸ hs.workerIDs) ?_
  intro w hw
  rw [hworkers] at hw
  exact ⟨w, hw, rfl, Nat.add_le_add_right (hheld w.id (s.fresh w.id)) _, hs.bounded w hw⟩

omit hs in
theorem mem_freeWorker {workerID : String} {w' : Worker} (hw' : w' ∈ freeWorker workerID workers) :
    ∃ w ∈ workers, w'.id = w.id ∧ w'.capacity = w.capacity ∧
      w'.activeJobs = if w.id = workerID then w.activeJobs - 1 else w.activeJobs := by
  obtain ⟨w, hw, rfl⟩ := mem_update.mp hw'
  refine ⟨w, hw, ?_⟩
  by_cases heq : w.id = workerID <;> simp [heq]

omit hs in
theorem Ended.held (hq : LeaseOk q) (hend : Ended q j state q') (workerID : String)
    (attemptIDs : List String) :
    q'.jobs.countP (heldBy workerID attemptIDs) + (if heldBy workerID attemptIDs j then 1 else 0) =
      q.jobs.countP (heldBy workerID attemptIDs) := by
  obtain ⟨now, available, attemptState, explanation, pj, pa, hjob, -, hstate, -, -, -, hpj, -⟩ :=
    hend
  obtain ⟨before, after, hjobs, hupdated⟩ := update_one (f := endJob now available state) hq.jobIDs
    hjob ((hpj j hjob).mpr rfl) fun x hx hp => (hpj x hx).mp hp
  have hover : heldBy workerID attemptIDs (endJob now available state j) = false := by
    simp [heldBy, endJob, hstate]
  rw [hupdated, hjobs]
  simp only [countP_append, countP_cons, hover, Bool.false_eq_true, ite_false]
  omega

theorem CapacityOk.ended (hcounts : s.counts j = true) (hend : Ended s.queue j state q') :
    CapacityOk { s with queue := q' } := by
  have hleases := hs.leases.ended hend
  have hheld := hend.held hs.leases
  obtain ⟨now, available, attemptState, explanation, pj, pa, hjob, hleased, -, -, -, -, -, -⟩ := hend
  obtain ⟨a, -, -, -, hid, -, hworker, -⟩ := hs.leases.holder hjob hleased
  refine hs.of_workers hleases (nodup_update hs.workerIDs fun _ _ => rfl) ?_
  intro w' hw'
  obtain ⟨w, hw, hwid, hcapacity, hactive⟩ := mem_freeWorker hw'
  refine ⟨w, hw, hwid.symm, ?_, ?_⟩
  · have hkept := hheld w.id (s.fresh w.id)
    have hcounted := hs.counted w hw
    rw [hwid, hactive, Roster.held, Roster.held]
    rw [Roster.held] at hcounted
    split
    · -- the counter goes down: either it counted this lease, or it was at zero
      rename_i hsame
      rw [hworker, Option.getD_some] at hsame
      simp only [Roster.counts, hworker, Option.getD_some, Bool.or_eq_true, all_eq_true] at hcounts
      rcases hcounts with hfresh | hzero
      · have hholds : heldBy w.id (s.fresh w.id) j = true := by
          simp only [heldBy, hleased, hworker, hsame, hfresh, decide_true, Bool.and_self]
        rw [if_pos hholds] at hkept
        dsimp only at hkept ⊢
        omega
      · have hidle : w.activeJobs = 0 := by simpa [hsame] using hzero w hw
        dsimp only at hkept ⊢
        omega
    · dsimp only at hkept ⊢
      omega
  · rw [hactive, hcapacity]
    have hbounded := hs.bounded w hw
    split <;> omega

omit hs in
theorem Ended.counts {x : Job} (hend : Ended s.queue j state q') (hcounts : s.counts x = true) :
    Roster.counts { s with queue := q' } x = true := by
  obtain ⟨now, available, attemptState, explanation, pj, pa, -, -, -, -, -, -, -, -⟩ := hend
  simp only [Roster.counts, Bool.or_eq_true, all_eq_true] at hcounts ⊢
  refine hcounts.imp_right fun hzero w' hw' => ?_
  obtain ⟨w, hw, hwid, -, hactive⟩ := mem_freeWorker hw'
  have hidle := hzero w hw
  simp only [ne_eq, decide_not, Bool.not_eq_true', decide_eq_false_iff_not,
    decide_eq_true_eq] at hidle ⊢
  rw [hwid, hactive]
  refine hidle.imp_right fun hidle => ?_
  split <;> omega

theorem CapacityOk.endsAll {jobs : List Job} (hends : EndsAll q jobs q') (hq : s.queue = q)
    (hcounts : ∀ j ∈ jobs, s.counts j = true) : CapacityOk { s with queue := q' } := by
  induction hends generalizing s with
  | nil => exact hq ▸ hs
  | @cons q q₁ q₂ j jobs state hend hrest ih =>
    subst hq
    have hnext := hs.ended (hcounts j mem_cons_self) hend
    exact ih (s := { s with queue := q₁ }) hnext rfl fun x hx =>
      hend.counts (hcounts x (mem_cons_of_mem _ hx))

omit hs in
theorem heldBy_cons (hq : LeaseOk q) (hfresh : ∀ a ∈ q.attempts, a.id ≠ attemptID)
    (hj : j ∈ q.jobs) (workerID : String) (attemptIDs : List String) :
    heldBy workerID (attemptID :: attemptIDs) j = heldBy workerID attemptIDs j := by
  by_cases hleased : j.state = .leased
  · obtain ⟨a, ha, -, -, hid, -⟩ := hq.holder hj hleased
    simp [heldBy, hid, hfresh a ha]
  · simp [heldBy, hleased]

omit hs in
theorem held_lease (hq : LeaseOk q) {request : ClaimRequest} {job : Job}
    (hclaimed : Claimed q attemptID request worker job) (now expires : ℕ)
    (token workerID : String) (attemptIDs : List String) :
    (q.lease now expires worker attemptID token job).jobs.countP (heldBy workerID attemptIDs) =
      q.jobs.countP (heldBy workerID attemptIDs) +
        if worker.id = workerID ∧ attemptID ∈ attemptIDs then 1 else 0 := by
  obtain ⟨before, after, hjobs, hupdated⟩ := lease_jobs hq hclaimed now expires token
  have hbefore : heldBy workerID attemptIDs job = false := by simp [heldBy, hclaimed.queued]
  have hafter : heldBy workerID attemptIDs (leaseJob worker attemptID token expires job) =
      decide (worker.id = workerID ∧ attemptID ∈ attemptIDs) := by
    simp [heldBy, leaseJob]
  rw [hupdated, hjobs]
  simp only [countP_append, countP_cons, hbefore, hafter, decide_eq_true_eq,
    Bool.false_eq_true, ite_false]
  omega

theorem CapacityOk.claimed {request : ClaimRequest} {job : Job}
    (hclaimed : Claimed s.queue attemptID request worker job) (expires : ℕ) (token : String) :
    CapacityOk
      { queue := s.queue.lease now expires worker attemptID token job
        fresh := update s.fresh worker.id (attemptID :: s.fresh worker.id) } := by
  have hheld := held_lease hs.leases hclaimed now expires token
  refine hs.of_workers (hs.leases.claimed hclaimed)
    (nodup_update hs.workerIDs fun _ _ => rfl) ?_
  intro w' hw'
  obtain ⟨w, hw, rfl⟩ := mem_update.mp hw'
  refine ⟨w, hw, ?_⟩
  by_cases hsame : w.id = worker.id
  · have heq : w = worker := eq_of_key hs.workerIDs hw hclaimed.registered hsame
    subst heq
    have hcons : s.queue.jobs.countP (heldBy w.id (attemptID :: s.fresh w.id)) = s.held w.id :=
      countP_congr fun x hx => by rw [heldBy_cons hs.leases hclaimed.fresh hx]
    simp only [decide_true, ite_true, true_and]
    refine ⟨?_, hclaimed.free⟩
    simp only [Roster.held, Function.update_self]
    rw [hheld, hcons]
    simp only [mem_cons, true_or, and_self, ite_true]
    rw [Roster.held]
    omega
  · simp only [hsame, decide_false, Bool.false_eq_true, ite_false, true_and]
    refine ⟨?_, hs.bounded w hw⟩
    simp only [Roster.held, Function.update_of_ne hsame]
    rw [hheld, if_neg fun h => hsame h.1.symm]
    omega

omit hs in
/-- A worker that registers holds nothing it obtained since. -/
theorem held_update_nil (worker : Worker) (queue : Queue) :
    Roster.held { queue := queue, fresh := update s.fresh worker.id [] } worker.id = 0 := by
  rw [Roster.held, countP_eq_zero]
  intro j _
  cases hid : j.leaseAttemptID <;> simp [heldBy, hid]

theorem CapacityOk.registered (hids : (workers.map Worker.id).Nodup)
    (hworkers : ∀ w ∈ workers, w = newWorker now worker ∨ w ∈ s.queue.workers ∧ w.id ≠ worker.id) :
    CapacityOk
      { queue := { s.queue with workers := workers }
        fresh := update s.fresh worker.id [] } := by
  refine ⟨⟨hs.leases.jobIDs, hs.leases.attemptIDs, hs.leases.owned, hs.leases.jobs⟩, hids, ?_, ?_⟩
  · intro w hw
    rcases hworkers w hw with rfl | ⟨hold, hother⟩
    · exact (held_update_nil worker _).le
    · have hcounted := hs.counted w hold
      simpa only [Roster.held, Function.update_of_ne hother] using hcounted
  · intro w hw
    rcases hworkers w hw with rfl | ⟨hold, -⟩
    · exact Nat.zero_le _
    · exact hs.bounded w hold

omit hs in
theorem register_workers (hids : (q.workers.map Worker.id).Nodup)
    (hregister : q.registerWorker now worker = .ok q') :
    ∃ workers, q' = { q with workers := workers } ∧ (workers.map Worker.id).Nodup ∧
      ∀ w ∈ workers, w = newWorker now worker ∨ w ∈ q.workers ∧ w.id ≠ worker.id := by
  obtain ⟨-, ⟨hnew, rfl⟩ | rfl⟩ := register_spec hregister
  · refine ⟨_, rfl, nodup_concat_map hids hnew, ?_⟩
    intro w hw
    rw [mem_append, mem_singleton] at hw
    exact hw.symm.imp_right fun hw => ⟨hw, hnew w hw⟩
  · refine ⟨_, rfl, nodup_update hids fun w hw => (of_decide_eq_true hw).symm, ?_⟩
    intro w' hw'
    obtain ⟨w, hw, rfl⟩ := mem_update.mp hw'
    split_ifs with hother
    · exact .inl rfl
    · exact .inr ⟨hw, by simpa using hother⟩

theorem CapacityOk.changed {op : Operation} (hregister : ∀ worker, op ≠ .registerWorker worker)
    (hclaim : ∀ attemptID token request, op ≠ .claim attemptID token request)
    (hguard : endsCounted s (now, op) = true) (hchanged : Changed s.queue now op q') :
    CapacityOk { s with queue := q' } := by
  have hleases := hs.leases.step hchanged
  cases hchanged with
  | unchanged => exact hs
  | enqueued =>
    refine hs.of_jobs hleases rfl fun workerID attemptIDs => ?_
    simp [heldBy, newJob]
  | registered worker | reregistered worker => exact absurd rfl (hregister worker)
  | claimed attemptID token request => exact absurd rfl (hclaim attemptID token request)
  | refreshed op p f hop hf =>
    refine hs.of_workers hleases (nodup_update hs.workerIDs fun w _ => (hf w).1) ?_
    refine forall_update (fun w hw _ => ⟨w, hw, ?_⟩) fun w hw => ⟨w, hw, rfl, le_rfl, hs.bounded w hw⟩
    obtain ⟨hid, hactive, hcapacity⟩ := hf w
    rw [hid, hactive, hcapacity]
    exact ⟨rfl, le_rfl, hs.bounded w hw⟩
  | extended => exact hs.of_jobs hleases rfl fun _ _ => countP_update_le fun _ _ _ h => h
  | finished jobID attemptID token result j q' hheld hend =>
    refine hs.ended ?_ hend
    have hjob : j ∈ s.queue.jobs := by
      obtain ⟨-, -, -, -, -, -, hjob, -⟩ := hend
      exact hjob
    simpa [hheld] using all_eq_true.mp hguard j hjob
  | canceled =>
    refine hs.of_jobs hleases rfl fun workerID attemptIDs => countP_update_le fun j _ _ hheld => ?_
    have hleased : j.state = .leased := by
      by_contra hother
      simp [heldBy, cancelJob, ite_eq_iff, hother] at hheld
    simpa [heldBy, cancelJob, hleased] using hheld
  | released => exact hs.of_jobs hleases rfl fun _ _ => countP_update_le fun _ _ _ h => h
  | reclaimed cutoff q' hends => exact hs.endsAll hends rfl fun j hj => all_eq_true.mp hguard j hj

theorem CapacityOk.step {ev : ℕ × Operation} (hguard : endsCounted s ev = true)
    (hstep : rosterStep s ev = some t) : CapacityOk t := by
  obtain ⟨now, op⟩ := ev
  obtain ⟨q', hq', rfl⟩ := Option.map_eq_some_iff.mp hstep
  have hchanged := hs.leases.changed hq'
  cases op with
  | registerWorker worker =>
    rcases queueStep_cases hq' with happly | ⟨⟨err, happly⟩, rfl⟩
    · have hregister : s.queue.registerWorker now worker = .ok q' := happly
      obtain ⟨workers, heq, hids, hworkers⟩ := register_workers hs.workerIDs hregister
      simp only [Roster.record, hregister, heq]
      exact hs.registered hids hworkers
    · have hregister : s.queue.registerWorker now worker = .error err := happly
      simpa only [Roster.record, hregister] using hs
  | claim attemptID token =>
    rcases queueStep_cases hq' with happly | ⟨⟨err, happly⟩, rfl⟩
    · obtain ⟨out, hclaim, rfl⟩ := map_eq_ok happly
      obtain ⟨worker, hclaimed, heq⟩ := claim_spec hclaim
      simp only [Roster.record, hclaim, heq, ← hclaimed.workerID]
      exact hs.claimed hclaimed _ token
    · have hclaim := map_eq_error happly
      simpa only [Roster.record, hclaim] using hs
  | _ => exact hs.changed (by simp) (by simp) hguard hchanged

end Steps

/-! ## Whole runs -/

/-- In every run in which no lease from before its worker's latest registration ends while
the worker's counter counts later leases, no worker holds more of the leases it obtained
since it registered than its capacity. -/
theorem leases_within_capacity {s : Roster} {es : List (ℕ × Operation)}
    (hguarded : Machine.Guarded rosterStep (fun s ev => endsCounted s ev = true) {} es)
    (hrun : exec rosterStep {} es = some s) {w : Worker} (hw : w ∈ s.queue.workers)
    (now : ℕ) : s.unexpired now w.id ≤ w.capacity := by
  have hkept : ∀ s ev s', CapacityOk s → endsCounted s ev = true → rosterStep s ev = some s' →
      CapacityOk s' := fun s ev s' hs hguard hstep => hs.step hguard hstep
  have hempty : CapacityOk {} := ⟨leaseOk_empty, nodup_nil,
    fun _ hw => absurd hw not_mem_nil, fun _ hw => absurd hw not_mem_nil⟩
  have hok := exec_invariant hkept hempty hguarded hrun
  have hheld : s.unexpired now w.id ≤ s.held w.id :=
    countP_mono_left fun j _ h => (Bool.and_eq_true_iff.mp h).1
  exact hheld.trans ((hok.counted w hw).trans (hok.bounded w hw))

/-! ## A restarted worker

A worker of capacity one takes a job and is restarted while the lease is live. -/

def restarted : List (ℕ × Operation) :=
  [(1, .registerWorker { id := "w1" }),
   (1, .enqueue "job-1" true { idempotencyKey := "task-1:0:fix" }),
   (1, .enqueue "job-2" true { idempotencyKey := "task-2:0:fix" }),
   (2, .claim "attempt-1" "claim-1" (request "w1")), (3, .registerWorker { id := "w1" })]

/-- The old lease runs out before the new process has taken anything. -/
def restartedIdle : List (ℕ × Operation) :=
  restarted ++ [(12, .reclaimExpired 12), (13, .claim "attempt-2" "claim-2" (request "w1"))]

theorem restartedIdle_within_capacity : ∃ s, exec rosterStep {} restartedIdle = some s ∧
      ∃ w ∈ s.queue.workers, w.capacity = 1 ∧ s.held w.id = 1 ∧ s.unexpired 13 w.id ≤ w.capacity := by
  refine ⟨_, exec_get (by decide), _, mem_cons_self, rfl, by decide, ?_⟩
  exact leases_within_capacity (by decide) (exec_get _) mem_cons_self 13

/-- The new process has taken a job when the old lease runs out. -/
def restartedBusy : List (ℕ × Operation) :=
  restarted ++ [(4, .claim "attempt-2" "claim-2" (request "w1")), (12, .reclaimExpired 12),
    (13, .claim "attempt-3" "claim-3" (request "w1"))]

/-- It then holds two live leases on a capacity of one. -/
theorem restartedBusy_over_capacity : ∃ s, exec rosterStep {} restartedBusy = some s ∧
      ∃ w ∈ s.queue.workers, w.capacity = 1 ∧ s.unexpired 13 w.id = 2 := by
  exact ⟨_, exec_get (by decide), by decide⟩

end Apiary.Queue
