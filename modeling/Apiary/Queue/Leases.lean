import Apiary.Queue.Store

/-!
# Leases and attempts

A lease is written twice: in the columns of the job and in an attempt of its own.  The
invariant says of each job, and of the attempts that name it, that the two agree, and it
is kept by every transaction.  The end of an attempt is the same whether the worker
finishes it or its lease runs out.
-/

namespace Apiary.Queue

open Table List Option Job Machine Attempt
open Bool (and_eq_true_iff and_eq_true)

variable {now expires : ℕ} {state : JobState} {jobID newID attemptID token : String} {j job : Job}
  {worker : Worker} {jobs : List Job} {out : Queue × Bool} {op : Operation} {ev : ℕ × Operation}

def Queue.attemptsOf (q : Queue) (jobID : String) : List Attempt :=
  q.attempts.filter fun a => a.jobID = jobID

def Attempt.isActive (a : Attempt) : Bool := a.state = .active

/-! ## One job -/

/-- A job against its attempts. -/
structure JobOk (j : Job) (attempts : List Attempt) : Prop where
  leased : j.state = .leased → ∃ a, attempts.filter isActive = [a] ∧
    j.leaseAttemptID = some a.id ∧ j.leaseToken = some a.claimToken ∧
    j.leaseWorkerID = some a.workerID
  unleased : j.state ≠ .leased → attempts.filter isActive = [] ∧
    j.leaseAttemptID = none ∧ j.leaseToken = none ∧ j.leaseWorkerID = none ∧ j.leaseExpiresAt = none
  numbered : attempts.map number = List.range' 1 j.attemptCount
  counted : j.attemptCount ≤ j.maxAttempts
  claimable : j.state = .queued → j.attemptCount < j.maxAttempts

section Jobs

variable {j : Job} {attempts : List Attempt}

theorem newJob_ok (now : ℕ) (newID : String) (job : Job) : JobOk (newJob now newID job) [] where
  leased h := by cases h
  unleased _ := ⟨rfl, rfl, rfl, rfl, rfl⟩
  numbered := rfl
  counted := Nat.zero_le _
  claimable _ := by
    change 0 < if job.maxAttempts = 0 then 3 else job.maxAttempts
    split <;> omega

variable (hj : JobOk j attempts)

include hj

theorem JobOk.lease (hqueued : j.state = .queued) (now expires : ℕ) (worker : Worker)
    (attemptID token : String) :
    JobOk (leaseJob worker attemptID token expires j)
      (attempts ++ [newAttempt now expires worker attemptID token j]) where
  leased _ := by
    refine ⟨newAttempt now expires worker attemptID token j, ?_, rfl, rfl, rfl⟩
    rw [filter_append, (hj.unleased (by simp [hqueued])).1]
    rfl
  unleased h := absurd rfl h
  numbered := by
    rw [map_append, hj.numbered]
    change List.range' 1 j.attemptCount ++ [j.attemptCount + 1] = List.range' 1 (j.attemptCount + 1)
    rw [range'_concat]
    simp [Nat.add_comm]
  counted := hj.claimable hqueued
  claimable h := by cases h

theorem JobOk.extend (hleased : j.state = .leased) (now expires : ℕ) (p : Attempt → Bool) :
    JobOk (extendJob expires j) (update p (extendAttempt now expires) attempts) := by
  obtain ⟨a, hactive, hid, htoken, hworker⟩ := hj.leased hleased
  have hactive' : (update p (extendAttempt now expires) attempts).filter isActive =
      update p (extendAttempt now expires) [a] := by
    rw [← hactive]
    exact filter_update fun _ _ => rfl
  have hnumbers : (update p (extendAttempt now expires) attempts).map number =
      attempts.map number := map_update fun _ _ => rfl
  refine ⟨fun _ => ?_, fun h => absurd hleased h, hnumbers.trans hj.numbered, hj.counted,
    hj.claimable⟩
  refine ⟨if p a then extendAttempt now expires a else a, hactive', ?_⟩
  split <;> exact ⟨hid, htoken, hworker⟩

theorem JobOk.end {available : ℕ} {attemptState : AttemptState} {explanation : String}
    {p : Attempt → Bool} (hstate : state ≠ .leased)
    (hqueued : state = .queued → j.attemptCount < j.maxAttempts) (hended : attemptState ≠ .active)
    (hp : ∀ a ∈ attempts, a.isActive = true → p a = true) :
    JobOk (endJob now available state j)
      (update p (endAttempt now attemptState explanation) attempts) where
  leased h := absurd h hstate
  unleased _ := by
    refine ⟨?_, rfl, rfl, rfl, rfl⟩
    rw [filter_eq_nil_iff]
    intro a ha hactive
    obtain ⟨a₀, ha₀, rfl⟩ := mem_update.mp ha
    split at hactive
    · exact hended (of_decide_eq_true hactive)
    · exact absurd (hp a₀ ha₀ hactive) ‹_›
  numbered := by
    have hnumbers : (update p (endAttempt now attemptState explanation) attempts).map
        number = attempts.map number := map_update fun _ _ => rfl
    exact hnumbers.trans hj.numbered
  counted := hj.counted
  claimable := hqueued

end Jobs

/-! ## The tables -/

structure LeaseOk (q : Queue) : Prop where
  jobIDs : (q.jobs.map Job.id).Nodup
  attemptIDs : (q.attempts.map Attempt.id).Nodup
  owned : ∀ a ∈ q.attempts, ∃ j ∈ q.jobs, j.id = a.jobID
  jobs : ∀ j ∈ q.jobs, JobOk j (q.attemptsOf j.id)

section Tables

variable {q q' : Queue}

theorem mem_attemptsOf {a : Attempt} :
    a ∈ q.attemptsOf jobID ↔ a ∈ q.attempts ∧ a.jobID = jobID := by
  rw [Queue.attemptsOf, mem_filter, decide_eq_true_eq]

theorem LeaseOk.holder (hq : LeaseOk q) (hj : j ∈ q.jobs) (hleased : j.state = .leased) :
    ∃ a ∈ q.attempts, a.jobID = j.id ∧ a.isActive = true ∧ j.leaseAttemptID = some a.id ∧
      j.leaseToken = some a.claimToken ∧ j.leaseWorkerID = some a.workerID ∧
      ∀ b ∈ q.attempts, b.jobID = j.id → b.isActive = true → b = a := by
  obtain ⟨a, hactive, hid, htoken, hworker⟩ := (hq.jobs j hj).leased hleased
  have hmem : a ∈ (q.attemptsOf j.id).filter isActive := by simp [hactive]
  obtain ⟨hof, hlive⟩ := mem_filter.mp hmem
  obtain ⟨ha, hjob⟩ := mem_attemptsOf.mp hof
  refine ⟨a, ha, hjob, hlive, hid, htoken, hworker, ?_⟩
  intro b hb hbjob hblive
  have hbmem : b ∈ (q.attemptsOf j.id).filter isActive :=
    mem_filter.mpr ⟨mem_attemptsOf.mpr ⟨hb, hbjob⟩, hblive⟩
  simpa [hactive] using hbmem

theorem LeaseOk.of_jobs (hq : LeaseOk q) {p : Job → Bool} {f : Job → Job}
    (hid : ∀ j, (f j).id = j.id)
    (hok : ∀ j attempts, p j = true → JobOk j attempts → JobOk (f j) attempts) :
    LeaseOk { q with jobs := update p f q.jobs } where
  jobIDs := nodup_update hq.jobIDs fun j _ => hid j
  attemptIDs := hq.attemptIDs
  owned a ha := exists_key_update hid (hq.owned a ha)
  jobs := by
    refine forall_update (fun j hj hp => ?_) hq.jobs
    rw [hid j]
    exact hok j _ hp (hq.jobs j hj)

/-- Jobs and attempts are written and keep their ids. -/
theorem LeaseOk.written {pj : Job → Bool} {fj : Job → Job} {pa : Attempt → Bool}
    {fa : Attempt → Attempt} (hq : LeaseOk q) (hid : ∀ j, (fj j).id = j.id)
    (hids : ∀ a, (fa a).id = a.id ∧ (fa a).jobID = a.jobID)
    (hjobs : ∀ x ∈ q.jobs, JobOk (if pj x then fj x else x)
      (update pa fa (q.attemptsOf x.id))) (workers : List Worker) :
    LeaseOk ⟨update pj fj q.jobs, update pa fa q.attempts, workers⟩ where
  jobIDs := nodup_update hq.jobIDs fun j _ => hid j
  attemptIDs := nodup_update hq.attemptIDs fun a _ => (hids a).1
  owned := by
    refine forall_update (fun a ha _ => ?_) fun a ha => exists_key_update hid (hq.owned a ha)
    rw [(hids a).2]
    exact exists_key_update hid (hq.owned a ha)
  jobs x' hx' := by
    obtain ⟨x, hx, rfl⟩ := mem_update.mp hx'
    have hkey : (if pj x then fj x else x).id = x.id := by
      split
      · exact hid x
      · rfl
    rw [hkey, Queue.attemptsOf, filter_update fun a _ => by rw [(hids a).2]]
    exact hjobs x hx

/-- The end of the attempt that holds the lease of `j`. -/
inductive Ended (q : Queue) (j : Job) (state : JobState) : Queue → Prop where
  | mk (now available : ℕ) (attemptState : AttemptState) (explanation : String) (pj : Job → Bool)
      (pa : Attempt → Bool) (hjob : j ∈ q.jobs) (hleased : j.state = .leased)
      (hstate : state ≠ .leased) (hcanceled : state = .canceled ↔ j.cancelRequested = true)
      (hqueued : state = .queued → j.attemptCount < j.maxAttempts)
      (hended : attemptState ≠ .active) (hpj : ∀ x ∈ q.jobs, pj x = true ↔ x.id = j.id)
      (hpa : ∀ a ∈ q.attempts, pa a = true ↔ j.leaseAttemptID = some a.id ∧ a.isActive = true) :
      Ended q j state
        { jobs := update pj (endJob now available state) q.jobs
          attempts := update pa (endAttempt now attemptState explanation) q.attempts
          workers := freeWorker (j.leaseWorkerID.getD "") q.workers }

theorem Ended.mem_of_ne {x : Job} (hend : Ended q j state q') (hx : x ∈ q.jobs)
    (hother : x.id ≠ j.id) : x ∈ q'.jobs := by
  obtain ⟨now, available, attemptState, explanation, pj, pa, -, -, -, -, -, -, hpj, -⟩ := hend
  refine mem_update.mpr ⟨x, hx, ?_⟩
  rw [if_neg fun hp => hother ((hpj x hx).mp hp)]

theorem LeaseOk.ended (hq : LeaseOk q) (hend : Ended q j state q') : LeaseOk q' := by
  obtain ⟨now, available, attemptState, explanation, pj, pa, hjob, hleased, hstate, hcanceled,
    hqueued, hended, hpj, hpa⟩ := hend
  obtain ⟨a, ha, hajob, hlive, hid, -, -, honly⟩ := hq.holder hjob hleased
  refine hq.written ?_ ?_ (fun x hx => ?_) _
  · exact fun _ => rfl
  · exact fun _ => ⟨rfl, rfl⟩
  by_cases hsame : x.id = j.id
  · have heq : x = j := eq_of_key hq.jobIDs hx hjob hsame
    subst heq
    rw [if_pos ((hpj x hx).mpr rfl)]
    refine (hq.jobs x hx).end hstate hqueued hended ?_
    intro b hb hblive
    obtain ⟨hb, hbjob⟩ := mem_attemptsOf.mp hb
    exact (hpa b hb).mpr ⟨by rw [honly b hb hbjob hblive, hid], hblive⟩
  · rw [if_neg fun hp => hsame ((hpj x hx).mp hp), update_eq_self]
    · exact hq.jobs x hx
    · intro b hb
      obtain ⟨hb, hbjob⟩ := mem_attemptsOf.mp hb
      by_contra hp
      have hba : some a.id = some b.id := hid.symm.trans ((hpa b hb).mp (by simpa using hp)).1
      have heq : a = b := eq_of_key hq.attemptIDs ha hb (some.inj hba)
      exact hsame (hbjob.symm.trans (heq ▸ hajob))

theorem LeaseOk.enqueued (hq : LeaseOk q) (hnew : ∀ j ∈ q.jobs, j.id ≠ (newJob now newID job).id) :
    LeaseOk { q with jobs := q.jobs ++ [newJob now newID job] } where
  jobIDs := nodup_concat_map hq.jobIDs hnew
  attemptIDs := hq.attemptIDs
  owned a ha := by
    obtain ⟨j, hj, hja⟩ := hq.owned a ha
    exact ⟨j, mem_append_left _ hj, hja⟩
  jobs j hj := by
    rw [mem_append, mem_singleton] at hj
    rcases hj with hj | rfl
    · exact hq.jobs j hj
    · -- no attempt names an id that was not in the table
      have hnone : q.attempts.filter (fun a => a.jobID = (newJob now newID job).id) = [] := by
        rw [filter_eq_nil_iff]
        intro a ha heq
        obtain ⟨x, hx, hxa⟩ := hq.owned a ha
        exact hnew x hx (hxa.trans (of_decide_eq_true heq))
      rw [Queue.attemptsOf, hnone]
      exact newJob_ok now newID job

/-- What a successful claim has checked. -/
structure Claimed (q : Queue) (attemptID : String) (request : ClaimRequest) (worker : Worker)
    (job : Job) : Prop where
  registered : worker ∈ q.workers
  workerID : worker.id = request.workerID
  free : worker.activeJobs < worker.capacity
  listed : job ∈ q.jobs
  queued : job.state = .queued
  not_canceled : job.cancelRequested = false
  pin : job.affinityWorkerID = "" ∨ job.affinityWorkerID = worker.id
  policy : q.withinPolicy request.policy job = true
  fresh : ∀ a ∈ q.attempts, a.id ≠ attemptID

/-- The only job that the claim writes. -/
theorem Claimed.hits_iff {request : ClaimRequest} {x : Job} (hq : LeaseOk q)
    (hclaimed : Claimed q attemptID request worker job) (hx : x ∈ q.jobs) :
    (decide (x.id = job.id) && decide (x.state = .queued) && !x.cancelRequested) = true ↔
      x = job := by
  constructor
  · intro hp
    simp only [and_eq_true, decide_eq_true_eq] at hp
    exact eq_of_key hq.jobIDs hx hclaimed.listed hp.1.1
  · rintro rfl
    simp [hclaimed.queued, hclaimed.not_canceled]

theorem LeaseOk.claimed {request : ClaimRequest} (hq : LeaseOk q)
    (hclaimed : Claimed q attemptID request worker job) :
    LeaseOk (q.lease now expires worker attemptID token job) := by
  refine ⟨?_, ?_, ?_, ?_⟩
  · exact nodup_update hq.jobIDs fun _ _ => rfl
  · exact nodup_concat_map hq.attemptIDs hclaimed.fresh
  · exact fun a ha =>
      exists_key_update (fun _ => rfl) (forall_insert hq.owned ⟨job, hclaimed.listed, rfl⟩ a ha)
  · intro x' hx'
    obtain ⟨x, hx, rfl⟩ := mem_update.mp hx'
    have hold := hq.jobs x hx
    have hof : ∀ jobID, (q.lease now expires worker attemptID token job).attemptsOf jobID =
        q.attemptsOf jobID ++
          if job.id = jobID then [newAttempt now expires worker attemptID token job] else [] := by
      intro jobID
      rw [Queue.attemptsOf, Queue.lease, filter_append, Queue.attemptsOf]
      congr 1
      by_cases heq : job.id = jobID <;> simp [newAttempt, heq]
    split_ifs with hp
    · rw [hclaimed.hits_iff hq hx] at hp
      subst hp
      change JobOk (leaseJob worker attemptID token expires x) (Queue.attemptsOf _ x.id)
      rw [hof, if_pos rfl]
      exact hold.lease hclaimed.queued now expires worker attemptID token
    · rw [hclaimed.hits_iff hq hx] at hp
      have hother : job.id ≠ x.id := fun hsame =>
        hp (eq_of_key hq.jobIDs hx hclaimed.listed hsame.symm)
      rw [hof, if_neg hother, append_nil]
      exact hold

/-- Several attempts end one after the other. -/
inductive EndsAll : Queue → List Job → Queue → Prop where
  | nil (q : Queue) : EndsAll q [] q
  | cons {q q₁ q₂ : Queue} {j : Job} {jobs : List Job} (state : JobState)
      (hend : Ended q j state q₁) (hrest : EndsAll q₁ jobs q₂) : EndsAll q (j :: jobs) q₂

theorem LeaseOk.endsAll (hq : LeaseOk q) (hends : EndsAll q jobs q') : LeaseOk q' := by
  induction hends with
  | nil => exact hq
  | cons state hend hrest ih => exact ih (hq.ended hend)

theorem finishStates_spec (job : Job) (result : FinishResult) :
    (finishStates job result).1 ≠ .active ∧ (finishStates job result).2 ≠ .leased ∧
      ((finishStates job result).2 = .canceled ↔ job.cancelRequested = true) ∧
      ((finishStates job result).2 = .queued → job.attemptCount < job.maxAttempts) := by
  rw [finishStates]
  split
  · simp_all
  · split
    · simp_all
    · split <;> simp_all

theorem expired_state_spec (item : Expired) :
    item.state ≠ .leased ∧ (item.state = .canceled ↔ item.canceled = true) ∧
      (item.state = .queued → item.attempts < item.maxAttempts) := by
  rw [Expired.state]
  split
  · simp_all
  · split
    · simp_all
    · simp_all

/-- A finish under the current lease ends its attempt. -/
theorem LeaseOk.finish_ended (hq : LeaseOk q) {result : FinishResult}
    (hfinish : q.finish now jobID attemptID token result = .ok q') :
    ∃ j, leasedAs jobID attemptID token j = true ∧ Ended q j (finishStates j result).2 q' := by
  rw [Queue.finish] at hfinish
  split at hfinish
  · cases hfinish
  · rename_i j hfind
    rw [Except.ok.injEq] at hfinish
    have hj := mem_of_find?_eq_some hfind
    have hleasedAs := find?_some hfind
    refine ⟨j, hleasedAs, ?_⟩
    simp only [leasedAs, and_eq_true, decide_eq_true_eq] at hleasedAs
    obtain ⟨⟨⟨hjid, hleased⟩, hid⟩, htoken⟩ := hleasedAs
    obtain ⟨a, ha, hajob, hlive, haid, hatoken, -, honly⟩ := hq.holder hj hleased
    rw [← hfinish]
    obtain ⟨hended, hstate, hcanceled, hqueued⟩ := finishStates_spec j result
    refine .mk now _ _ _ _ _ hj hleased hstate hcanceled hqueued hended ?_ ?_
    · intro x hx
      simp only [and_eq_true, decide_eq_true_eq]
      constructor
      · exact fun h => h.1.1.trans hjid.symm
      · intro hsame
        rw [eq_of_key hq.jobIDs hx hj hsame]
        exact ⟨⟨hjid, hid⟩, htoken⟩
    · intro b hb
      simp only [and_eq_true, decide_eq_true_eq, Attempt.isActive]
      constructor
      · exact fun h => ⟨by rw [hid, h.1.1], h.2⟩
      · intro h
        have hba : b = a := eq_of_key hq.attemptIDs hb ha (some.inj (h.1.symm.trans haid))
        subst hba
        exact ⟨⟨some.inj (h.1.symm.trans hid), some.inj (hatoken.symm.trans htoken)⟩, h.2⟩

theorem LeaseOk.reclaim_ended (hq : LeaseOk q) (now : ℕ) {item : Expired} (hj : j ∈ q.jobs)
    (hleased : j.state = .leased) (hitem : j.expired = some item) :
    Ended q j item.state (q.reclaim now item) := by
  obtain ⟨attemptID, hid, rfl⟩ := map_eq_some_iff.mp hitem
  obtain ⟨hstate, hcanceled, hqueued⟩ := expired_state_spec
    { jobID := j.id, attemptID := attemptID, workerID := j.leaseWorkerID.getD "",
      attempts := j.attemptCount, maxAttempts := j.maxAttempts, canceled := j.cancelRequested }
  have hbroken : ∀ x ∈ q.jobs, (decide (x.id = j.id) && decide (x.state = .leased) &&
        decide (x.leaseAttemptID = some attemptID)) = true ↔ x.id = j.id := by
    intro x hx
    simp only [and_eq_true, decide_eq_true_eq]
    constructor
    · exact fun h => h.1.1
    · intro hsame
      rw [eq_of_key hq.jobIDs hx hj hsame]
      exact ⟨⟨rfl, hleased⟩, hid⟩
  have hany : q.jobs.any (fun x => decide (x.id = j.id) && decide (x.state = .leased) &&
      decide (x.leaseAttemptID = some attemptID)) = true :=
    List.any_eq_true.mpr ⟨j, hj, (hbroken j hj).mpr rfl⟩
  rw [Queue.reclaim]
  dsimp only
  rw [if_pos hany]
  refine .mk now now .expired _ _ _ hj hleased hstate hcanceled hqueued (by decide) hbroken ?_
  intro b hb
  simp only [and_eq_true, decide_eq_true_eq, isActive]
  rw [hid, some.injEq]
  exact and_congr_left fun _ => eq_comm

/-- The rows it read are all there when their turn comes: ending one attempt leaves the
other jobs as they are. -/
theorem LeaseOk.reclaim_endsAll (now : ℕ) {items : List Expired} (hnodup : (jobs.map Job.id).Nodup)
    (hitems : jobs.mapM expired = some items) (hq : LeaseOk q)
    (hjobs : ∀ j ∈ jobs, j ∈ q.jobs ∧ j.state = .leased) :
    EndsAll q jobs (items.foldl (Queue.reclaim now) q) := by
  induction jobs generalizing q items with
  | nil =>
    rw [mapM_nil] at hitems
    cases hitems
    exact .nil q
  | cons j jobs ih =>
    rw [mapM_cons, bind_eq_bind, bind_eq_some_iff] at hitems
    obtain ⟨item, hitem, hitems⟩ := hitems
    rw [bind_eq_bind, bind_eq_some_iff] at hitems
    obtain ⟨rest, hrest, hitems⟩ := hitems
    cases hitems
    rw [map_cons, nodup_cons] at hnodup
    obtain ⟨hj, hleased⟩ := hjobs j mem_cons_self
    have hend := hq.reclaim_ended now hj hleased hitem
    refine .cons item.state hend (ih hnodup.2 hrest (hq.ended hend) ?_)
    intro x hx
    obtain ⟨hxq, hxleased⟩ := hjobs x (mem_cons_of_mem _ hx)
    have hother : x.id ≠ j.id := fun hsame => hnodup.1 (hsame ▸ List.mem_map_of_mem hx)
    exact ⟨hend.mem_of_ne hxq hother, hxleased⟩

end Tables

/-! ## Transactions -/

def Operation.cancels : Operation → Bool
  | .requestCancel _ => true
  | .requestCancelFor _ _ => true
  | _ => false

/-- The operations that refresh a worker's row and leave its counter alone. -/
def Operation.refreshes : Operation → Bool
  | .heartbeatWorker _ _ => true
  | .setWorkerDrain _ _ => true
  | _ => false

/-- What a transaction can do. -/
inductive Changed (q : Queue) (now : ℕ) : Operation → Queue → Prop where
  | unchanged (op : Operation) : Changed q now op q
  | enqueued (newID : String) (validPayload : Bool) (job : Job)
      (hid : ∀ j ∈ q.jobs, j.id ≠ (newJob now newID job).id) :
      Changed q now (.enqueue newID validPayload job)
        { q with jobs := q.jobs ++ [newJob now newID job] }
  | registered (worker : Worker) (hnew : ∀ w ∈ q.workers, w.id ≠ worker.id) :
      Changed q now (.registerWorker worker)
        { q with workers := q.workers ++ [newWorker now worker] }
  | reregistered (worker : Worker) : Changed q now (.registerWorker worker)
        { q with
          workers := update (fun w => w.id = worker.id) (fun _ => newWorker now worker) q.workers }
  | refreshed (op : Operation) (p : Worker → Bool) (f : Worker → Worker)
      (hop : op.refreshes = true)
      (hf : ∀ w, (f w).id = w.id ∧ (f w).activeJobs = w.activeJobs ∧ (f w).capacity = w.capacity) :
      Changed q now op { q with workers := update p f q.workers }
  | claimed (attemptID token : String) (request : ClaimRequest) (worker : Worker) (job : Job)
      (hclaimed : Claimed q attemptID request worker job) :
      Changed q now (.claim attemptID token request)
        (q.lease now (now + orDefault request.leaseDuration) worker attemptID token job)
  | extended (jobID attemptID token : String) (extension : ℕ) (j : Job) (hj : j ∈ q.jobs)
      (hheld : leasedAs jobID attemptID token j = true) :
      Changed q now (.heartbeat jobID attemptID token extension)
        { q with
          jobs := update (leasedAs jobID attemptID token)
            (extendJob (now + orDefault extension)) q.jobs
          attempts := update (holds jobID attemptID token)
            (extendAttempt now (now + orDefault extension)) q.attempts }
  | finished (jobID attemptID token : String) (result : FinishResult) (j : Job) (q' : Queue)
      (hheld : leasedAs jobID attemptID token j = true)
      (hend : Ended q j (finishStates j result).2 q') :
      Changed q now (.finish jobID attemptID token result) q'
  | canceled (op : Operation) (p : Job → Bool) (hop : op.cancels = true)
      (hopen : ∀ j, p j = true → j.isOpen = true) :
      Changed q now op { q with jobs := update p (cancelJob now) q.jobs }
  | released (jobID : String) : Changed q now (.releaseAffinity jobID)
        { q with jobs := update (fun j => j.id = jobID && j.state = .queued) unpinJob q.jobs }
  | reclaimed (cutoff : ℕ) (q' : Queue) (hends : EndsAll q (q.expiredJobs cutoff) q') :
      Changed q now (.reclaimExpired cutoff) q'

section Transactions

variable {q q' : Queue} {now : ℕ}

theorem ite_error_eq_ok {α ε : Type} {c : Prop} [Decidable c] {err : ε} {x : Except ε α} {a : α} :
    (if c then .error err else x) = .ok a ↔ ¬ c ∧ x = .ok a := by
  split <;> simp [*]

theorem select_spec {policy : ConcurrencyPolicy} (hselect : q.select now worker policy = some job) :
    job ∈ q.jobs ∧ claimable now worker job = true ∧ compatible worker job = true ∧
      q.withinPolicy policy job = true := by
  rw [Queue.select] at hselect
  have hfits := find?_some hselect
  rw [and_eq_true] at hfits
  have hcandidate := mem_of_mem_take (mem_of_find?_eq_some hselect)
  rw [mem_insertionSort, mem_filter] at hcandidate
  exact ⟨hcandidate.1, hcandidate.2, hfits⟩

theorem claim_spec {request : ClaimRequest} {out : Queue × Job}
    (hclaim : q.claim now attemptID token request = .ok out) :
    ∃ worker, Claimed q attemptID request worker out.2 ∧
      out.1 = q.lease now (now + orDefault request.leaseDuration) worker attemptID token out.2 := by
  rw [Queue.claim] at hclaim
  split at hclaim
  · cases hclaim
  · rename_i worker hworker
    simp only [ite_error_eq_ok] at hclaim
    obtain ⟨-, -, hfree, hclaim⟩ := hclaim
    split at hclaim
    · cases hclaim
    · rename_i hselect
      simp only [ite_error_eq_ok] at hclaim
      obtain ⟨-, hnew, ⟨⟩⟩ := hclaim
      have hid : worker.id = request.workerID := by simpa using find?_some hworker
      obtain ⟨hjob, hclaimable, -, hpolicy⟩ := select_spec hselect
      simp only [claimable, and_eq_true, Bool.or_eq_true, decide_eq_true_eq,
        Bool.not_eq_true'] at hclaimable
      obtain ⟨⟨⟨hqueued, hcancel⟩, -⟩, hpin⟩ := hclaimable
      refine ⟨worker, ⟨mem_of_find?_eq_some hworker, hid, by omega, hjob, hqueued, hcancel, hpin,
        hpolicy, ?_⟩, rfl⟩
      intro a ha heq
      exact hnew (List.any_eq_true.mpr ⟨a, ha, by simp [heq]⟩)

theorem lease_jobs {request : ClaimRequest} (hq : LeaseOk q)
    (hclaimed : Claimed q attemptID request worker job) (now expires : ℕ) (token : String) :
    ∃ before after, q.jobs = before ++ job :: after ∧
      (q.lease now expires worker attemptID token job).jobs =
        before ++ leaseJob worker attemptID token expires job :: after := by
  refine update_one hq.jobIDs hclaimed.listed
    ((hclaimed.hits_iff hq hclaimed.listed).mpr rfl) fun x hx hp => ?_
  rw [(hclaimed.hits_iff hq hx).mp hp]

theorem map_eq_ok {α β ε : Type} {x : Except ε α} {f : α → β} {b : β} (hmap : x.map f = .ok b) :
    ∃ a, x = .ok a ∧ f a = b := by
  cases x with
  | error => cases hmap
  | ok a => exact ⟨a, rfl, Except.ok.inj hmap⟩

theorem map_eq_error {α β ε : Type} {x : Except ε α} {f : α → β} {err : ε}
    (hmap : x.map f = .error err) : x = .error err := by
  cases x with
  | error => exact congrArg Except.error (Except.error.inj hmap)
  | ok => cases hmap

theorem enqueue_cases {validPayload : Bool}
    (henqueue : q.enqueue now newID validPayload job = .ok out) :
    Changed q now (.enqueue newID validPayload job) out.1 := by
  simp only [Queue.enqueue, ite_error_eq_ok] at henqueue
  obtain ⟨-, -, -, henqueue⟩ := henqueue
  split at henqueue
  · split_ifs at henqueue
    cases henqueue
    exact .unchanged _
  · rename_i htaken
    cases henqueue
    refine .enqueued newID validPayload job ?_
    intro j hj heq
    exact htaken (List.any_eq_true.mpr ⟨j, hj, by simp [heq]⟩)

theorem register_spec (hregister : q.registerWorker now worker = .ok q') :
    worker.id ≠ "" ∧ ((∀ w ∈ q.workers, w.id ≠ worker.id) ∧
        q' = { q with workers := q.workers ++ [newWorker now worker] } ∨
      q' = { q with
        workers := update (fun w => w.id = worker.id) (fun _ => newWorker now worker) q.workers }) := by
  simp only [Queue.registerWorker, ite_error_eq_ok] at hregister
  obtain ⟨hblank, -, -, hregister⟩ := hregister
  refine ⟨fun hempty => hblank (by rw [hempty]; rfl), ?_⟩
  split_ifs at hregister with hknown
  · exact .inr (Except.ok.inj hregister).symm
  · exact .inl ⟨by simpa using hknown, (Except.ok.inj hregister).symm⟩

theorem heartbeat_cases {extension : ℕ}
    (hheartbeat : q.heartbeat now jobID attemptID token extension = .ok out) :
    Changed q now (.heartbeat jobID attemptID token extension) out.1 := by
  simp only [Queue.heartbeat, ite_error_eq_ok] at hheartbeat
  obtain ⟨-, hheartbeat⟩ := hheartbeat
  split at hheartbeat
  · cases hheartbeat
  · rename_i j hfind
    cases hheartbeat
    exact .extended jobID attemptID token extension j
      (mem_of_find?_eq_some hfind) (find?_some hfind)

theorem LeaseOk.apply_cases (hq : LeaseOk q) (hop : q.apply now op = .ok q') :
    Changed q now op q' := by
  cases op with
  | enqueue =>
    obtain ⟨out, hout, rfl⟩ := map_eq_ok hop
    exact enqueue_cases hout
  | registerWorker worker =>
    obtain ⟨-, ⟨hnew, rfl⟩ | rfl⟩ := register_spec hop
    · exact .registered worker hnew
    · exact .reregistered worker
  | heartbeatWorker =>
    simp only [Queue.apply, Queue.heartbeatWorker] at hop
    split_ifs at hop
    cases hop
    exact .refreshed _ _ _ rfl fun w => ⟨rfl, rfl, rfl⟩
  | setWorkerDrain =>
    simp only [Queue.apply, Queue.setWorkerDrain] at hop
    split_ifs at hop
    cases hop
    exact .refreshed _ _ _ rfl fun w => ⟨rfl, rfl, rfl⟩
  | claim attemptID token request =>
    obtain ⟨out, hout, rfl⟩ := map_eq_ok hop
    obtain ⟨worker, hclaimed, heq⟩ := claim_spec hout
    exact heq ▸ .claimed attemptID token request worker out.2 hclaimed
  | heartbeat =>
    obtain ⟨out, hout, rfl⟩ := map_eq_ok hop
    exact heartbeat_cases hout
  | finish jobID attemptID token result =>
    obtain ⟨j, hheld, hend⟩ := hq.finish_ended hop
    exact .finished jobID attemptID token result j q' hheld hend
  | requestCancel =>
    simp only [Queue.apply, Queue.requestCancel] at hop
    split_ifs at hop
    cases hop
    exact .canceled _ _ rfl fun j hj => (and_eq_true_iff.mp hj).2
  | requestCancelFor =>
    simp only [Queue.apply, Queue.requestCancelFor, Except.ok.injEq] at hop
    exact hop ▸ .canceled _ _ rfl fun j hj => (and_eq_true_iff.mp hj).2
  | releaseAffinity jobID =>
    simp only [Queue.apply, Queue.releaseAffinity] at hop
    split_ifs at hop
    cases hop
    exact .released jobID
  | reclaimExpired cutoff =>
    simp only [Queue.apply, Queue.reclaimExpired] at hop
    split at hop
    · cases hop
    · rename_i hitems
      cases hop
      refine .reclaimed cutoff _ (hq.reclaim_endsAll now ?_ hitems ?_)
      · exact hq.jobIDs.sublist (filter_sublist.map Job.id)
      · intro j hj
        obtain ⟨hmem, hexpired⟩ := mem_filter.mp hj
        exact ⟨hmem, of_decide_eq_true (and_eq_true_iff.mp hexpired).1⟩

/-- A transaction that fails changes nothing. -/
theorem queueStep_cases (hstep : queueStep q ev = some q') :
    q.apply ev.1 ev.2 = .ok q' ∨ (∃ err, q.apply ev.1 ev.2 = .error err) ∧ q' = q := by
  rw [queueStep] at hstep
  split at hstep
  · rename_i happly
    rw [some.injEq] at hstep
    exact .inl (hstep ▸ happly)
  · rename_i err happly
    rw [some.injEq] at hstep
    exact .inr ⟨⟨err, happly⟩, hstep.symm⟩

theorem LeaseOk.changed (hq : LeaseOk q) (hstep : queueStep q ev = some q') :
    Changed q ev.1 ev.2 q' := by
  rcases queueStep_cases hstep with happly | ⟨-, rfl⟩
  · exact hq.apply_cases happly
  · exact .unchanged ev.2

theorem LeaseOk.extended (hq : LeaseOk q) (hj : j ∈ q.jobs)
    (hheld : leasedAs jobID attemptID token j = true) :
    LeaseOk
      { q with
        jobs := update (leasedAs jobID attemptID token) (extendJob expires) q.jobs
        attempts := update (Attempt.holds jobID attemptID token) (extendAttempt now expires)
          q.attempts } := by
  refine hq.written ?_ ?_ (fun x hx => ?_) _
  · exact fun _ => rfl
  · exact fun _ => ⟨rfl, rfl⟩
  split_ifs with hxheld
  · refine (hq.jobs x hx).extend ?_ now expires _
    simp only [leasedAs, and_eq_true, decide_eq_true_eq] at hxheld
    exact hxheld.1.1.2
  · rw [update_eq_self]
    · exact hq.jobs x hx
    · intro a ha
      by_contra hholds
      have hajob : a.jobID = jobID := by
        simp only [Bool.not_eq_false, holds, and_eq_true, decide_eq_true_eq] at hholds
        exact hholds.1.1.2
      have hxid : x.id = j.id := by
        simp only [leasedAs, and_eq_true, decide_eq_true_eq] at hheld
        exact (mem_attemptsOf.mp ha).2.symm.trans (hajob.trans hheld.1.1.1.symm)
      exact hxheld (eq_of_key hq.jobIDs hx hj hxid ▸ hheld)

theorem cancelJob_ok {attempts : List Attempt} (hopen : j.isOpen = true) (hj : JobOk j attempts) :
    JobOk (cancelJob now j) attempts := by
  have hstates : j.state = .queued ∨ j.state = .leased := by simpa [isOpen] using hopen
  rcases hstates with h | h
  · exact ⟨by simp [cancelJob, h], fun _ => hj.unleased (by simp [h]), hj.numbered, hj.counted,
      by simp [cancelJob, h]⟩
  · exact ⟨fun _ => hj.leased h, by simp [cancelJob, h], hj.numbered, hj.counted,
      by simp [cancelJob, h]⟩

theorem LeaseOk.step (hq : LeaseOk q) (hchanged : Changed q now op q') : LeaseOk q' := by
  cases hchanged with
  | unchanged => exact hq
  | enqueued newID validPayload job hid => exact hq.enqueued hid
  | registered | reregistered | refreshed => exact ⟨hq.jobIDs, hq.attemptIDs, hq.owned, hq.jobs⟩
  | claimed attemptID token request worker job hclaimed => exact hq.claimed hclaimed
  | extended jobID attemptID token extension j hj hheld => exact hq.extended hj hheld
  | finished jobID attemptID token result j q' hheld hend => exact hq.ended hend
  | canceled op p hop hopen =>
    exact hq.of_jobs (fun _ => rfl) fun j attempts hp hj => cancelJob_ok (hopen j hp) hj
  | released =>
    exact hq.of_jobs (fun _ => rfl) fun _ _ _ hj =>
      ⟨hj.leased, hj.unleased, hj.numbered, hj.counted, hj.claimable⟩
  | reclaimed cutoff q' hends => exact hq.endsAll hends

theorem leaseOk_empty : LeaseOk {} :=
  ⟨nodup_nil, nodup_nil, fun _ ha => absurd ha not_mem_nil, fun _ hj => absurd hj not_mem_nil⟩

theorem leaseOk_run {es : List (ℕ × Operation)} (hrun : exec queueStep {} es = some q) :
    LeaseOk q :=
  exec_invariant_of_step (fun _ _ _ hq hstep => hq.step (hq.changed hstep)) leaseOk_empty hrun

end Transactions

/-! ## What the tables say -/

/-- The attempts of a job that are still running. -/
def Queue.activeAttempts (q : Queue) (jobID : String) : List Attempt :=
  (q.attemptsOf jobID).filter isActive

/-- In every reachable state a job is leased exactly when one attempt of it is active, the
lease columns are those of that attempt, a job without a lease has no such columns and no
active attempt, and its attempts are numbered from one up to its count, which stays within
the budget. -/
theorem leases_match_attempts {q : Queue} {es : List (ℕ × Operation)}
    (hrun : exec queueStep {} es = some q) {j : Job} (hj : j ∈ q.jobs) :
    (j.state = .leased ↔ (q.activeAttempts j.id).length = 1) ∧
      (∀ a ∈ q.activeAttempts j.id, j.leaseAttemptID = some a.id ∧
        j.leaseToken = some a.claimToken ∧ j.leaseWorkerID = some a.workerID) ∧
      (j.state ≠ .leased → q.activeAttempts j.id = [] ∧ j.leaseAttemptID = none ∧
        j.leaseToken = none ∧ j.leaseWorkerID = none ∧ j.leaseExpiresAt = none) ∧
      (q.attemptsOf j.id).map number = List.range' 1 j.attemptCount ∧
      j.attemptCount ≤ j.maxAttempts := by
  have hok := (leaseOk_run hrun).jobs j hj
  by_cases hleased : j.state = .leased
  · obtain ⟨a, hactive, hlease⟩ := hok.leased hleased
    have hone : q.activeAttempts j.id = [a] := hactive
    refine ⟨?_, ?_, fun h => absurd hleased h, hok.numbered, hok.counted⟩
    · simp [hleased, hone]
    · intro b hb
      rw [hone, mem_singleton] at hb
      exact hb ▸ hlease
  · obtain ⟨hactive, hlease⟩ := hok.unleased hleased
    have hnone : q.activeAttempts j.id = [] := hactive
    refine ⟨?_, ?_, fun _ => ⟨hnone, hlease⟩, hok.numbered, hok.counted⟩
    · simp [hleased, hnone]
    · simp [hnone]

/-- In every reachable state each active attempt holds the lease of one job, and of no
other. -/
theorem active_attempt_holds_one {q : Queue} {es : List (ℕ × Operation)}
    (hrun : exec queueStep {} es = some q) {a : Attempt} (ha : a ∈ q.attempts)
    (hlive : a.isActive = true) :
    ∃! j, j ∈ q.jobs ∧ j.leaseAttemptID = some a.id := by
  have hq := leaseOk_run hrun
  -- a job that names an attempt is leased, and the attempt is its own
  have howns : ∀ k ∈ q.jobs, k.leaseAttemptID = some a.id → k.id = a.jobID := by
    intro k hk hkid
    have hleased : k.state = .leased := by
      by_contra hnot
      exact nomatch hkid.symm.trans ((hq.jobs k hk).unleased hnot).2.1
    obtain ⟨b, hb, hbjob, -, hbid, -⟩ := hq.holder hk hleased
    rw [eq_of_key hq.attemptIDs ha hb (some.inj (hkid.symm.trans hbid)), hbjob]
  obtain ⟨j, hj, hja⟩ := hq.owned a ha
  have hmem : a ∈ (q.attemptsOf j.id).filter isActive :=
    mem_filter.mpr ⟨mem_attemptsOf.mpr ⟨ha, hja.symm⟩, hlive⟩
  have hleased : j.state = .leased := by
    by_contra hnot
    simp [((hq.jobs j hj).unleased hnot).1] at hmem
  obtain ⟨b, -, -, -, hid, -, -, honly⟩ := hq.holder hj hleased
  refine ⟨j, ⟨hj, by rw [hid, honly a ha hja.symm hlive]⟩, fun k hk => ?_⟩
  exact eq_of_key hq.jobIDs hk.1 hj ((howns k hk.1 hk.2).trans hja.symm)

/-! ## A build job

One job and one worker; leases last ten ticks. -/

def buildJob : Job := { id := "build", idempotencyKey := "task-1:0:build", maxAttempts := 2 }

def request (workerID : String) : ClaimRequest :=
  { workerID := workerID, leaseDuration := 10, workerTimeout := 1000 }

/-- The first lease of the job runs out, and the worker gets it again. -/
def buildTwice : List (ℕ × Operation) :=
  [(1, .registerWorker { id := "w1" }), (1, .enqueue "job-1" true buildJob),
   (2, .claim "attempt-1" "claim-1" (request "w1")), (20, .reclaimExpired 20),
   (21, .claim "attempt-2" "claim-2" (request "w1"))]

/-- The second lease is that of the second attempt. -/
theorem build_second_lease_matches :
    ∃ q, exec queueStep {} buildTwice = some q ∧ ∃ j ∈ q.jobs, j.state = .leased ∧
      (q.activeAttempts j.id).length = 1 ∧
      (q.attemptsOf j.id).map number = [1, 2] := by
  have hrun := exec_get (by decide : (exec queueStep {} buildTwice).isSome = true)
  obtain ⟨hlease, -, -, hnumbers, -⟩ := leases_match_attempts hrun List.mem_cons_self
  exact ⟨_, hrun, _, List.mem_cons_self, rfl, hlease.mp rfl, by rw [hnumbers]; rfl⟩

theorem build_second_attempt_holds : ∃ q, exec queueStep {} buildTwice = some q ∧
    ∃! j, j ∈ q.jobs ∧ j.leaseAttemptID = some "attempt-2" := by
  have hrun := exec_get (by decide : (exec queueStep {} buildTwice).isSome = true)
  exact ⟨_, hrun, active_attempt_holds_one hrun (mem_cons_of_mem _ mem_cons_self) rfl⟩

end Apiary.Queue
