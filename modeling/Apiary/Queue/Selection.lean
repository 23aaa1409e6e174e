import Apiary.Queue.Leases

/-!
# The job a claim returns

A claim reads the jobs that are open to the worker in the order of their priority and age,
and returns the first that the worker and the policy admit.  It reads no more than a
hundred of them.  What it returns is therefore the best job there is, if it returns one;
whether it does depends on how far down the list the best job stands.
-/

namespace Apiary.Queue

open Table List Machine

variable {job : Job}

/-! ## The best job -/

/-- The jobs that are open to the worker, in the order of the scan. -/
def Queue.candidates (q : Queue) (now : ℕ) (worker : Worker) : List Job :=
  (q.jobs.filter (claimable now worker)).insertionSort before

/-- The worker may run the job now. -/
def Queue.eligible (q : Queue) (now : ℕ) (worker : Worker) (policy : ConcurrencyPolicy) (job : Job) :
    Bool :=
  claimable now worker job && (compatible worker job && q.withinPolicy policy job)

/-- No job that the worker may run has a higher priority, or the same one and more age. -/
structure Queue.IsBest (q : Queue) (now : ℕ) (worker : Worker) (policy : ConcurrencyPolicy)
    (job : Job) : Prop where
  listed : job ∈ q.jobs
  eligible : q.eligible now worker policy job = true
  first : ∀ other ∈ q.jobs, q.eligible now worker policy other = true → before job other

theorem before_total (a b : Job) : before a b ∨ before b a := by
  simp only [before]
  omega

theorem before_trans {a b c : Job} (hab : before a b) (hbc : before b c) : before a c := by
  simp only [before] at *
  omega

section Scan

variable {q : Queue} {now : ℕ} {worker : Worker} {policy : ConcurrencyPolicy}

theorem candidates_pairwise : (q.candidates now worker).Pairwise before := by
  have : Std.Total before := ⟨before_total⟩
  have : IsTrans Job before := ⟨fun _ _ _ => before_trans⟩
  exact pairwise_insertionSort before _

theorem mem_candidates :
    job ∈ q.candidates now worker ↔ job ∈ q.jobs ∧ claimable now worker job = true := by
  rw [Queue.candidates, mem_insertionSort, mem_filter]

theorem eligible_of_candidate (hjob : job ∈ q.candidates now worker) :
    q.eligible now worker policy job = (compatible worker job && q.withinPolicy policy job) := by
  rw [Queue.eligible, (mem_candidates.mp hjob).2, Bool.true_and]

/-- In a sorted list the first hit comes before every other one. -/
theorem find?_first {α : Type} {r : α → α → Prop} {p : α → Bool} {xs : List α} {x y : α}
    (hrefl : ∀ a, r a a) (hsorted : xs.Pairwise r) (hfind : xs.find? p = some x) (hy : y ∈ xs)
    (hp : p y = true) : r x y := by
  induction xs with
  | nil => cases hy
  | cons a xs ih =>
    rw [pairwise_cons] at hsorted
    rw [find?_cons] at hfind
    by_cases ha : p a = true
    · simp only [ha, Option.some.injEq] at hfind
      subst hfind
      rcases mem_cons.mp hy with rfl | hy
      · exact hrefl y
      · exact hsorted.1 y hy
    · simp only [ha] at hfind
      rcases mem_cons.mp hy with rfl | hy
      · exact absurd hp ha
      · exact ih hsorted.2 hfind hy

theorem select_best (hselect : q.select now worker policy = some job) :
    q.IsBest now worker policy job := by
  obtain ⟨hjob, hclaimable, hcompatible, hpolicy⟩ := select_spec hselect
  refine ⟨hjob, by simp [Queue.eligible, hclaimable, hcompatible, hpolicy], ?_⟩
  intro other hother heligible
  have hfind : (q.candidates now worker).find?
      (fun job => compatible worker job && q.withinPolicy policy job) = some job := by
    have htake : (q.candidates now worker).take 100 ++ (q.candidates now worker).drop 100 =
        q.candidates now worker := take_append_drop 100 _
    have hhit : ((q.candidates now worker).take 100).find?
        (fun job => compatible worker job && q.withinPolicy policy job) = some job := hselect
    rw [← htake, find?_append, hhit]
    rfl
  have hcandidate : other ∈ q.candidates now worker :=
    mem_candidates.mpr ⟨hother, (Bool.and_eq_true_iff.mp heligible).1⟩
  have hrefl : ∀ a : Job, before a a := fun a => (before_total a a).elim id id
  exact find?_first hrefl candidates_pairwise hfind hcandidate (Bool.and_eq_true_iff.mp heligible).2

theorem select_isSome_iff : (∃ job, q.select now worker policy = some job) ↔
      ∃ job ∈ (q.candidates now worker).take 100, q.eligible now worker policy job = true := by
  rw [← Option.isSome_iff_exists, Queue.select, find?_isSome]
  constructor
  · rintro ⟨job, hjob, hfits⟩
    exact ⟨job, hjob, (eligible_of_candidate (mem_of_mem_take hjob)).trans hfits⟩
  · rintro ⟨job, hjob, heligible⟩
    exact ⟨job, hjob, (eligible_of_candidate (mem_of_mem_take hjob)).symm.trans heligible⟩

end Scan

/-! ## The claim -/

/-- The checks of the worker's row: ready, not draining, heard of lately, and with a free
slot. -/
def Worker.admitted (worker : Worker) (now : ℕ) (request : ClaimRequest) : Bool :=
  worker.ready && !worker.draining && now ≤ worker.lastHeartbeat + orDefault request.workerTimeout &&
    worker.activeJobs < worker.capacity

section Claim

variable {q : Queue} {now : ℕ} {attemptID token : String} {request : ClaimRequest} {worker : Worker}

theorem claim_ok (hfound : q.workers.find? (fun w => w.id = request.workerID) = some worker)
    {out : Queue × Job} (hclaim : q.claim now attemptID token request = .ok out) :
    worker.admitted now request = true ∧ (∀ a ∈ q.attempts, a.id ≠ attemptID) ∧
      q.select now worker request.policy = some out.2 := by
  simp only [Queue.claim, hfound] at hclaim
  split at hclaim
  · cases hclaim
  rename_i hready
  split at hclaim
  · cases hclaim
  rename_i hheard
  split at hclaim
  · cases hclaim
  rename_i hfree
  split at hclaim
  · cases hclaim
  rename_i hselect
  split at hclaim
  · cases hclaim
  split_ifs at hclaim with hnew
  cases hclaim
  refine ⟨?_, ?_, hselect⟩
  · simp only [Bool.or_eq_true, Bool.not_eq_true', not_or, Bool.not_eq_false, Bool.not_eq_true]
      at hready
    simp [Worker.admitted, hready.1, hready.2, Nat.not_lt.mp hheard, Nat.not_le.mp hfree]
  · intro a ha heq
    exact hnew (any_eq_true.mpr ⟨a, ha, by simp [heq]⟩)

/-- The row of a selected job is the only one under its id. -/
theorem LeaseOk.countP_job (hq : LeaseOk q) (hjob : job ∈ q.jobs)
    (hclaimable : claimable now worker job = true) :
    q.jobs.countP (fun j => j.id = job.id && j.state = .queued && !j.cancelRequested) = 1 := by
  simp only [claimable, Bool.and_eq_true, decide_eq_true_eq, Bool.not_eq_true'] at hclaimable
  obtain ⟨⟨⟨hqueued, hcanceled⟩, -⟩, -⟩ := hclaimable
  have hpos : 0 < q.jobs.countP
      (fun j => j.id = job.id && j.state = .queued && !j.cancelRequested) :=
    countP_pos_iff.mpr ⟨job, hjob, by simp [hqueued, hcanceled]⟩
  have hle : q.jobs.countP (fun j => j.id = job.id && j.state = .queued && !j.cancelRequested) ≤
      (q.jobs.map Job.id).count job.id := by
    rw [List.count, countP_map]
    apply countP_mono_left
    intro j _ hj
    simp only [Bool.and_eq_true, decide_eq_true_eq] at hj
    simp [hj.1.1]
  have hone := nodup_iff_count_le_one.mp hq.jobIDs job.id
  omega

theorem LeaseOk.number_fresh (hq : LeaseOk q) (hjob : job ∈ q.jobs) {a : Attempt}
    (ha : a ∈ q.attempts) (howner : a.jobID = job.id) : a.number ≠ job.attemptCount + 1 := by
  have hnumber : a.number ∈ (q.attemptsOf job.id).map Attempt.number :=
    mem_map_of_mem (mem_attemptsOf.mpr ⟨ha, howner⟩)
  rw [(hq.jobs job hjob).numbered, mem_range'_1] at hnumber
  omega

theorem LeaseOk.claim_selected (hq : LeaseOk q)
    (hfound : q.workers.find? (fun w => w.id = request.workerID) = some worker)
    (hadmitted : worker.admitted now request = true) (hfresh : ∀ a ∈ q.attempts, a.id ≠ attemptID)
    (hselect : q.select now worker request.policy = some job) :
    q.claim now attemptID token request =
      .ok (q.lease now (now + orDefault request.leaseDuration) worker attemptID token job, job) := by
  simp only [Worker.admitted, Bool.and_eq_true, Bool.not_eq_true', decide_eq_true_eq] at hadmitted
  obtain ⟨⟨⟨hready, hdraining⟩, hheard⟩, hfree⟩ := hadmitted
  obtain ⟨hjob, hclaimable, -, -⟩ := select_spec hselect
  have hnew : (q.attempts.any fun a =>
      a.id = attemptID || a.jobID = job.id && a.number = job.attemptCount + 1) = false := by
    rw [any_eq_false]
    intro a ha
    simp only [Bool.or_eq_true, Bool.and_eq_true, decide_eq_true_eq, not_or, not_and]
    exact ⟨hfresh a ha, hq.number_fresh hjob ha⟩
  simp only [Queue.claim, hfound, hselect, hq.countP_job hjob hclaimable, hnew]
  simp [hready, hdraining, Nat.not_lt.mpr hheard, Nat.not_le.mpr hfree]

end Claim

/-- A claim says that there is no job only when there is none that the worker may run, and
it returns the best one when there is. -/
def Queue.OffersBest (q : Queue) (now : ℕ) (attemptID token : String) (request : ClaimRequest) :
    Prop :=
  ∀ worker, q.workers.find? (fun w => w.id = request.workerID) = some worker →
    (q.claim now attemptID token request = .error .noJob →
      ∀ job ∈ q.jobs, q.eligible now worker request.policy job = false) ∧
    ((∃ job ∈ q.jobs, q.eligible now worker request.policy job = true) →
      ∃ out, q.claim now attemptID token request = .ok out ∧
        q.IsBest now worker request.policy out.2)

/-- If there is a job that the worker may run, the worker's row is in order, the id of the
attempt is not taken, and such a job is among the first hundred that are open to the
worker. -/
def Queue.InReach (q : Queue) (now : ℕ) (attemptID : String) (request : ClaimRequest) : Prop :=
  ∀ worker, q.workers.find? (fun w => w.id = request.workerID) = some worker →
    (∃ job ∈ q.jobs, q.eligible now worker request.policy job = true) →
    worker.admitted now request = true ∧ (∀ a ∈ q.attempts, a.id ≠ attemptID) ∧
      ∃ job ∈ (q.candidates now worker).take 100, q.eligible now worker request.policy job = true

/-- In every reachable state of the queue, and for every request. -/
theorem claim_offers_best_iff {q : Queue} {es : List (ℕ × Operation)}
    (hrun : exec queueStep {} es = some q) (now : ℕ) (attemptID token : String)
    (request : ClaimRequest) :
    q.OffersBest now attemptID token request ↔ q.InReach now attemptID request := by
  have hq : LeaseOk q := leaseOk_run hrun
  constructor
  · intro hoffers worker hfound heligible
    obtain ⟨out, hclaim, -⟩ := (hoffers worker hfound).2 heligible
    obtain ⟨hadmitted, hfresh, hselect⟩ := claim_ok hfound hclaim
    exact ⟨hadmitted, hfresh, select_isSome_iff.mp ⟨out.2, hselect⟩⟩
  · intro hreach worker hfound
    have hclaimed : (∃ job ∈ q.jobs, q.eligible now worker request.policy job = true) →
        ∃ out, q.claim now attemptID token request = .ok out ∧
          q.IsBest now worker request.policy out.2 := by
      intro heligible
      obtain ⟨hadmitted, hfresh, hscan⟩ := hreach worker hfound heligible
      obtain ⟨job, hselect⟩ := select_isSome_iff.mpr hscan
      exact ⟨_, hq.claim_selected hfound hadmitted hfresh hselect, select_best hselect⟩
    refine ⟨?_, hclaimed⟩
    intro hnone job hjob
    rw [← Bool.not_eq_true]
    intro heligible
    obtain ⟨out, hclaim, -⟩ := hclaimed ⟨job, hjob, heligible⟩
    simp [hclaim] at hnone

/-! ## A backlog

A worker without a pool of its own, and training jobs for the pool of machines that have a
graphics card. -/

def trainingJob (number : ℕ) : ℕ × Operation :=
  (1, .enqueue (toString number) true
    { idempotencyKey := toString number ++ ":0:train", pool := "gpu" })

/-- Behind the training jobs stands one that any worker can run. -/
def backlog (training : ℕ) : List (ℕ × Operation) :=
  (List.range training).map trainingJob ++
    [(2, .enqueue "docs" true { idempotencyKey := "docs:0:docs" }),
     (3, .registerWorker { id := "w1" })]

def saysNoJob : Except QueueError (Queue × Job) → Bool
  | .error .noJob => true
  | _ => false

/-- What the claim answers the worker, and whether there is a job for it. -/
def Queue.answer (q : Queue) : Option (Bool × Bool) :=
  (q.workers.find? fun w => w.id = (request "w1").workerID).map fun worker =>
    (saysNoJob (q.claim 4 "attempt-1" "claim-1" (request "w1")),
      q.jobs.any (q.eligible 4 worker (request "w1").policy))

/-- Behind one training job it is found. -/
theorem backlog_one_offered :
    ∃ q, exec queueStep {} (backlog 1) = some q ∧ q.answer = some (false, true) ∧
      q.OffersBest 4 "attempt-1" "claim-1" (request "w1") := by
  have hrun := exec_get (by decide +kernel : (exec queueStep {} (backlog 1)).isSome = true)
  refine ⟨_, hrun, by decide +kernel,
    (claim_offers_best_iff hrun 4 "attempt-1" "claim-1" (request "w1")).mpr ?_⟩
  intro worker hfound heligible
  refine ⟨(by decide +kernel : ∀ w ∈ Queue.workers _, w.admitted 4 (request "w1") = true) worker
    (mem_of_find?_eq_some hfound), by decide +kernel, ?_⟩
  obtain ⟨job, hjob, hfits⟩ := heligible
  refine ⟨job, ?_, hfits⟩
  rw [take_of_length_le]
  · exact mem_candidates.mpr ⟨hjob, (Bool.and_eq_true_iff.mp hfits).1⟩
  · rw [Queue.candidates, length_insertionSort]
    exact (length_filter_le _ _).trans (by decide +kernel)

/-- Behind a hundred of them it is not, although the worker could run it. -/
theorem backlog_hundred_not_offered :
    ∃ q, exec queueStep {} (backlog 100) = some q ∧ q.answer = some (true, true) ∧
      ¬ q.OffersBest 4 "attempt-1" "claim-1" (request "w1") := by
  have hout : (exec queueStep {} (backlog 100)).map Queue.answer =
      some (some (true, true)) := by decide +kernel
  obtain ⟨q, hrun, hanswer⟩ := Option.map_eq_some_iff.mp hout
  refine ⟨q, hrun, hanswer, ?_⟩
  intro hoffers
  obtain ⟨worker, hfound, hobs⟩ := Option.map_eq_some_iff.mp hanswer
  rw [Prod.mk.injEq] at hobs
  obtain ⟨job, hjob, heligible⟩ := any_eq_true.mp hobs.2
  obtain ⟨out, hclaim, -⟩ := (hoffers worker hfound).2 ⟨job, hjob, heligible⟩
  rw [hclaim] at hobs
  cases hobs.1

end Apiary.Queue
