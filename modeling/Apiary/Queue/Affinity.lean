import Apiary.Queue.Leases

/-!
# Affinity

The first claim of a job with an affinity key pins that job to its worker, and the pin
outlives the attempt.  The pin is a column of the job, so other jobs with the same key are
not pinned by it, although the key stands for the task and not for the job.

The machine of this module records beside the tables which worker a key belongs to: the
one that claimed a job with the key last, until the affinity of such a job is released.
-/

namespace Apiary.Queue

open Table List Option Machine Function Bool

variable {q' q : Queue} {now expires : ℕ} {job : Job} {attemptID token : String} {worker : Worker}

structure Pins where
  queue : Queue := {}
  owner : String → Option String := fun _ => none

def Pins.record (s : Pins) (now : ℕ) : Operation → String → Option String
  | .claim attemptID token request =>
    match s.queue.claim now attemptID token request with
    | .ok out =>
      if out.2.affinityKey = "" then s.owner
      else update s.owner out.2.affinityKey (some request.workerID)
    | .error _ => s.owner
  | .releaseAffinity jobID =>
    match s.queue.releaseAffinity jobID with
    | .ok _ => fun key =>
      if s.queue.jobs.any fun j => j.id = jobID && j.affinityKey = key then none else s.owner key
    | .error _ => s.owner
  | _ => s.owner

def pinStep (s : Pins) (ev : ℕ × Operation) : Option Pins :=
  (queueStep s.queue ev).map fun q => { queue := q, owner := s.record ev.1 ev.2 }

/-- Every claim of a job with a key that belongs to a worker is made by that worker. -/
def Pins.Kept (s : Pins) : Prop :=
  ∀ now attemptID token request out, s.queue.claim now attemptID token request = .ok out →
    out.2.affinityKey ≠ "" → ∀ workerID, s.owner out.2.affinityKey = some workerID →
      request.workerID = workerID

/-- A job shares its key only with jobs that are pinned to the worker it is enqueued for,
and only the one job of a key is released. -/
def keysPinned (s : Pins) (ev : ℕ × Operation) : Bool :=
  match ev.2 with
  | .enqueue _ _ job =>
    job.affinityKey = "" || s.queue.jobs.all fun j => j.affinityKey ≠ job.affinityKey ||
      (j.affinityWorkerID = job.affinityWorkerID && job.affinityWorkerID ≠ "")
  | .releaseAffinity jobID =>
    s.queue.jobs.all fun j => s.queue.jobs.all fun k =>
      j.id ≠ jobID || j.affinityKey = "" || k.affinityKey ≠ j.affinityKey || k.id = jobID
  | _ => true

/-! ## Pins follow the key -/

structure PinOk (s : Pins) : Prop where
  leases : LeaseOk s.queue
  workers : ∀ w ∈ s.queue.workers, w.id ≠ ""
  owned : ∀ key workerID, key ≠ "" → s.owner key = some workerID →
    ∀ j ∈ s.queue.jobs, j.affinityKey = key → j.affinityWorkerID = workerID
  listed : ∀ key workerID, s.owner key = some workerID → ∃ j ∈ s.queue.jobs, j.affinityKey = key
  shared : ∀ j ∈ s.queue.jobs, ∀ k ∈ s.queue.jobs, j.affinityKey ≠ "" →
    k.affinityKey = j.affinityKey → k.id ≠ j.id →
      k.affinityWorkerID = j.affinityWorkerID ∧ j.affinityWorkerID ≠ ""
  real : ∀ key workerID, s.owner key = some workerID → workerID ≠ ""

section Steps

variable {s t : Pins}

theorem PinOk.kept (hs : PinOk s) : s.Kept := by
  intro now attemptID token request out hclaim hkey workerID howner
  obtain ⟨worker, hclaimed, -⟩ := claim_spec hclaim
  have hpinned := hs.owned _ workerID hkey howner out.2 hclaimed.listed rfl
  rcases hpinned ▸ hclaimed.pin with hnone | hsame
  · exact absurd hnone (hs.real _ workerID howner)
  · exact hclaimed.workerID.symm.trans hsame.symm

/-- The columns that affinity is about. -/
def Job.pin (j : Job) : String × String × String := (j.id, j.affinityKey, j.affinityWorkerID)

/-- Steps that keep the affinity columns of every job and the owners. -/
theorem PinOk.of_columns (hs : PinOk s) (hleases : LeaseOk q')
    (hworkers : ∀ w ∈ q'.workers, w.id ≠ "")
    (hcolumns : q'.jobs.map Job.pin = s.queue.jobs.map Job.pin) : PinOk { s with queue := q' } := by
  have hback : ∀ j' ∈ q'.jobs, ∃ j ∈ s.queue.jobs, j'.id = j.id ∧
      j'.affinityKey = j.affinityKey ∧ j'.affinityWorkerID = j.affinityWorkerID := by
    intro j' hj'
    have hmem := List.mem_map_of_mem (f := Job.pin) hj'
    rw [hcolumns] at hmem
    obtain ⟨j, hj, heq⟩ := List.mem_map.mp hmem
    simp only [Job.pin, Prod.mk.injEq] at heq
    exact ⟨j, hj, heq.1.symm, heq.2.1.symm, heq.2.2.symm⟩
  refine ⟨hleases, hworkers, ?_, ?_, ?_, hs.real⟩
  · intro key workerID hkey howner j' hj' hj'key
    obtain ⟨j, hj, -, hkeys, hpins⟩ := hback j' hj'
    exact hpins.trans (hs.owned key workerID hkey howner j hj (hkeys.symm.trans hj'key))
  · intro key workerID howner
    obtain ⟨j, hj, hjkey⟩ := hs.listed key workerID howner
    have hmem := List.mem_map_of_mem (f := Job.pin) hj
    rw [← hcolumns] at hmem
    obtain ⟨j', hj', heq⟩ := List.mem_map.mp hmem
    simp only [Job.pin, Prod.mk.injEq] at heq
    exact ⟨j', hj', heq.2.1.trans hjkey⟩
  · intro j' hj' k' hk' hkey hsame hother
    obtain ⟨j, hj, hid, hkeys, hpins⟩ := hback j' hj'
    obtain ⟨k, hk, hkid, hkkeys, hkpins⟩ := hback k' hk'
    rw [hkpins, hpins]
    exact hs.shared j hj k hk (hkeys ▸ hkey) (by rw [← hkkeys, ← hkeys, hsame])
      (by rw [← hkid, ← hid]; exact hother)

theorem Ended.pins {j : Job} {state : JobState} (hend : Ended q j state q') :
    q'.jobs.map Job.pin = q.jobs.map Job.pin ∧ ∀ w' ∈ q'.workers, ∃ w ∈ q.workers, w'.id = w.id := by
  obtain ⟨now, available, attemptState, explanation, pj, pa, -, -, -, -, -, -, -, -⟩ := hend
  refine ⟨map_update fun _ _ => rfl, fun w' hw' => ?_⟩
  obtain ⟨w, hw, rfl⟩ := mem_update.mp hw'
  refine ⟨w, hw, ?_⟩
  split <;> rfl

theorem EndsAll.pins {jobs : List Job} (hends : EndsAll q jobs q') :
    q'.jobs.map Job.pin = q.jobs.map Job.pin ∧ ∀ w' ∈ q'.workers, ∃ w ∈ q.workers, w'.id = w.id := by
  induction hends with
  | nil => exact ⟨rfl, fun w hw => ⟨w, hw, rfl⟩⟩
  | @cons q q₁ q₂ j jobs state hend hrest ih =>
    have hpins := hend.pins
    refine ⟨ih.1.trans hpins.1, fun w' hw' => ?_⟩
    obtain ⟨w₁, hw₁, hid₁⟩ := ih.2 w' hw'
    obtain ⟨w, hw, hid⟩ := hpins.2 w₁ hw₁
    exact ⟨w, hw, hid₁.trans hid⟩

theorem PinOk.enqueued (hs : PinOk s) {newID : String} {validPayload : Bool}
    (hid : ∀ j ∈ s.queue.jobs, j.id ≠ (newJob now newID job).id)
    (hguard : keysPinned s (now, .enqueue newID validPayload job) = true) :
    PinOk { s with queue := { s.queue with jobs := s.queue.jobs ++ [newJob now newID job] } } := by
  have hpinned : job.affinityKey ≠ "" → ∀ j ∈ s.queue.jobs, j.affinityKey = job.affinityKey →
      j.affinityWorkerID = job.affinityWorkerID ∧ job.affinityWorkerID ≠ "" := by
    intro hkey j hj hsame
    have hall : ∀ x ∈ s.queue.jobs, ¬ x.affinityKey = job.affinityKey ∨
        x.affinityWorkerID = job.affinityWorkerID ∧ ¬ job.affinityWorkerID = "" := by
      simpa [keysPinned, hkey] using hguard
    exact (hall j hj).resolve_left fun hne => hne hsame
  refine ⟨hs.leases.enqueued hid, hs.workers, ?_, ?_, ?_, hs.real⟩
  · intro key workerID hkey howner j hj hjkey
    rw [mem_append, mem_singleton] at hj
    rcases hj with hj | rfl
    · exact hs.owned key workerID hkey howner j hj hjkey
    · obtain ⟨x, hx, hxkey⟩ := hs.listed key workerID howner
      have hxpin := hs.owned key workerID hkey howner x hx hxkey
      have hjob : job.affinityKey = key := hjkey
      exact ((hpinned (hjob ▸ hkey) x hx (hxkey.trans hjob.symm)).1.symm).trans hxpin
  · intro key workerID howner
    obtain ⟨x, hx, hxkey⟩ := hs.listed key workerID howner
    exact ⟨x, mem_append_left _ hx, hxkey⟩
  · intro j hj k hk hkey hsame hother
    rw [mem_append, mem_singleton] at hj hk
    rcases hj with hj | rfl
    · rcases hk with hk | rfl
      · exact hs.shared j hj k hk hkey hsame hother
      · have hjob : job.affinityKey = j.affinityKey := hsame
        obtain ⟨hpin, hreal⟩ := hpinned (hjob ▸ hkey) j hj hjob.symm
        exact ⟨hpin.symm, hpin ▸ hreal⟩
    · rcases hk with hk | rfl
      · exact hpinned hkey k hk hsame
      · exact absurd rfl hother

theorem Claimed.pinned {request : ClaimRequest}
    (hclaimed : Claimed q attemptID request worker job) (hkey : job.affinityKey ≠ "")
    (token : String) (expires : ℕ) :
    (leaseJob worker attemptID token expires job).affinityWorkerID = worker.id := by
  simp only [leaseJob]
  rcases hclaimed.pin with hnone | hsame
  · rw [if_pos ⟨hkey, hnone⟩]
  · split
    · rfl
    · exact hsame

theorem mem_lease_jobs (hq : LeaseOk q) {request : ClaimRequest}
    (hclaimed : Claimed q attemptID request worker job) {j' : Job}
    (hj' : j' ∈ (q.lease now expires worker attemptID token job).jobs) :
    j' = leaseJob worker attemptID token expires job ∨ j' ∈ q.jobs ∧ j'.id ≠ job.id := by
  obtain ⟨j, hj, rfl⟩ := mem_update.mp hj'
  split_ifs with hp
  · exact .inl (by rw [(hclaimed.hits_iff hq hj).mp hp])
  · rw [hclaimed.hits_iff hq hj] at hp
    exact .inr ⟨hj, fun hsame => hp (eq_of_key hq.jobIDs hj hclaimed.listed hsame)⟩

theorem owner_claimed {workerID key : String} {owner : Option String}
    (howner : (if job.affinityKey = "" then s.owner
      else update s.owner job.affinityKey (some workerID)) key = owner) :
    key = job.affinityKey ∧ key ≠ "" ∧ owner = some workerID ∨
      (key = job.affinityKey → key = "") ∧ s.owner key = owner := by
  by_cases hempty : job.affinityKey = ""
  · rw [if_pos hempty] at howner
    exact .inr ⟨fun h => h.trans hempty, howner⟩
  · rw [if_neg hempty] at howner
    by_cases hkey : key = job.affinityKey
    · rw [hkey, Function.update_self] at howner
      exact .inl ⟨hkey, hkey ▸ hempty, howner.symm⟩
    · rw [Function.update_of_ne hkey] at howner
      exact .inr ⟨fun h => absurd h hkey, howner⟩

variable (hs : PinOk s)

include hs

theorem PinOk.shared_pin {request : ClaimRequest} {k : Job}
    (hclaimed : Claimed s.queue attemptID request worker job) (hk : k ∈ s.queue.jobs)
    (hkey : job.affinityKey ≠ "") (hsame : k.affinityKey = job.affinityKey) (hother : k.id ≠ job.id) :
    k.affinityWorkerID = worker.id ∧ worker.id ≠ "" := by
  obtain ⟨hpin, hreal⟩ := hs.shared job hclaimed.listed k hk hkey hsame hother
  have hworker := hclaimed.pin.resolve_left hreal
  exact ⟨hpin.trans hworker, hworker ▸ hreal⟩

theorem PinOk.claimed {request : ClaimRequest}
    (hclaimed : Claimed s.queue attemptID request worker job) :
    PinOk
      { queue := s.queue.lease now expires worker attemptID token job
        owner := if job.affinityKey = "" then s.owner
          else update s.owner job.affinityKey (some request.workerID) } := by
  have hworkerID : request.workerID = worker.id := hclaimed.workerID.symm
  refine ⟨hs.leases.claimed hclaimed,
    ?_, ?_, ?_, ?_, ?_⟩
  · exact forall_update (fun w hw _ => hs.workers w hw) hs.workers
  · intro key workerID hkey howner j' hj' hj'key
    rcases mem_lease_jobs hs.leases hclaimed hj' with rfl | ⟨hj, hother⟩
    · have hjob : job.affinityKey = key := hj'key
      rcases owner_claimed howner with ⟨-, -, hsome⟩ | ⟨hempty, -⟩
      · rw [hclaimed.pinned (hjob ▸ hkey), ← hworkerID]
        exact (some.inj hsome).symm
      · exact absurd (hempty hjob.symm) hkey
    · rcases owner_claimed howner with ⟨hsame, -, hsome⟩ | ⟨-, hold⟩
      · rw [(hs.shared_pin hclaimed hj (hsame ▸ hkey) (hj'key.trans hsame) hother).1, ← hworkerID]
        exact (some.inj hsome).symm
      · exact hs.owned key workerID hkey hold j' hj hj'key
  · intro key workerID howner
    have hlisted : ∃ x ∈ s.queue.jobs, x.affinityKey = key := by
      rcases owner_claimed howner with ⟨hsame, -, -⟩ | ⟨-, hold⟩
      · exact ⟨job, hclaimed.listed, hsame.symm⟩
      · exact hs.listed key workerID hold
    obtain ⟨x, hx, hxkey⟩ := hlisted
    refine ⟨_, mem_update.mpr ⟨x, hx, rfl⟩, ?_⟩
    split <;> exact hxkey
  · intro j' hj' k' hk' hkey hsame hother
    rcases mem_lease_jobs hs.leases hclaimed hj' with rfl | ⟨hj, hjother⟩
    · rcases mem_lease_jobs hs.leases hclaimed hk' with rfl | ⟨hk, hkother⟩
      · exact absurd rfl hother
      · obtain ⟨hpin, hreal⟩ := hs.shared_pin hclaimed hk hkey hsame hkother
        rw [hclaimed.pinned hkey]
        exact ⟨hpin, hreal⟩
    · rcases mem_lease_jobs hs.leases hclaimed hk' with rfl | ⟨hk, hkother⟩
      · have hjob : job.affinityKey = j'.affinityKey := hsame
        obtain ⟨hpin, hreal⟩ := hs.shared_pin hclaimed hj (hjob ▸ hkey) hjob.symm hjother
        rw [hclaimed.pinned (hjob ▸ hkey), hpin]
        exact ⟨rfl, hreal⟩
      · exact hs.shared j' hj k' hk hkey hsame hother
  · intro key workerID howner
    rcases owner_claimed howner with ⟨-, -, hsome⟩ | ⟨-, hold⟩
    · rw [some.inj hsome, hworkerID]
      exact hs.workers worker hclaimed.registered
    · exact hs.real key workerID hold

theorem PinOk.released {jobID : String} (hrelease : s.queue.releaseAffinity jobID = .ok q')
    (hguard : keysPinned s (now, .releaseAffinity jobID) = true) :
    PinOk
      { queue := q'
        owner := fun key =>
          if s.queue.jobs.any fun j => j.id = jobID && j.affinityKey = key then none
          else s.owner key } := by
  have hop : s.queue.apply now (.releaseAffinity jobID) = .ok q' := hrelease
  have hleases := hs.leases.step (hs.leases.apply_cases hop)
  have halone : ∀ j ∈ s.queue.jobs, ∀ k ∈ s.queue.jobs, j.id = jobID → j.affinityKey ≠ "" →
      k.affinityKey = j.affinityKey → k.id = jobID := by
    intro j hj k hk hid hkey hsame
    have hall := List.all_eq_true.mp (List.all_eq_true.mp hguard j hj) k hk
    simpa [hid, hkey, hsame] using hall
  rw [Queue.releaseAffinity] at hrelease
  split_ifs at hrelease
  cases hrelease
  refine ⟨hleases, hs.workers, ?_, ?_, ?_, ?_⟩
  · intro key workerID hkey howner j' hj' hj'key
    obtain ⟨j, hj, rfl⟩ := mem_update.mp hj'
    obtain ⟨hnone, howner⟩ := ite_none_left_eq_some.mp howner
    split_ifs at hj'key with hhits
    · have hid : j.id = jobID := by simpa using (and_eq_true_iff.mp hhits).1
      exact absurd (List.any_eq_true.mpr ⟨j, hj, by simpa [hid, unpinJob] using hj'key⟩) hnone
    · rw [if_neg hhits]
      exact hs.owned key workerID hkey howner j hj hj'key
  · intro key workerID howner
    obtain ⟨-, howner⟩ := ite_none_left_eq_some.mp howner
    obtain ⟨x, hx, hxkey⟩ := hs.listed key workerID howner
    refine ⟨_, mem_update.mpr ⟨x, hx, rfl⟩, ?_⟩
    split <;> exact hxkey
  · intro j' hj' k' hk' hkey hsame hother
    obtain ⟨j, hj, rfl⟩ := mem_update.mp hj'
    obtain ⟨k, hk, rfl⟩ := mem_update.mp hk'
    have hcolumns : ∀ x : Job, (if decide (x.id = jobID) && decide (x.state = .queued)
        then unpinJob x else x).affinityKey = x.affinityKey ∧
        (if decide (x.id = jobID) && decide (x.state = .queued) then unpinJob x else x).id = x.id := by
      intro x
      split <;> exact ⟨rfl, rfl⟩
    rw [(hcolumns j).1] at hkey
    rw [(hcolumns j).1, (hcolumns k).1] at hsame
    rw [(hcolumns j).2, (hcolumns k).2] at hother
    have hjid : j.id ≠ jobID := fun hid => hother ((halone j hj k hk hid hkey hsame).trans hid.symm)
    have hkid : k.id ≠ jobID :=
      fun hid => hother (hid.trans (halone k hk j hj hid (hsame ▸ hkey) hsame.symm).symm)
    have hmisses : ∀ x : Job, x.id ≠ jobID →
        ¬ (decide (x.id = jobID) && decide (x.state = .queued)) = true :=
      fun x hx h => hx (of_decide_eq_true (and_eq_true_iff.mp h).1)
    rw [if_neg (hmisses j hjid), if_neg (hmisses k hkid)]
    exact hs.shared j hj k hk hkey hsame hother
  · intro key workerID howner
    exact hs.real key workerID (ite_none_left_eq_some.mp howner).2

theorem PinOk.changed {op : Operation}
    (hclaim : ∀ attemptID token request, op ≠ .claim attemptID token request)
    (hrelease : ∀ jobID, op ≠ .releaseAffinity jobID) (hguard : keysPinned s (now, op) = true)
    (hregister : ∀ worker, op = .registerWorker worker → ∀ w ∈ q'.workers, w.id ≠ "")
    (hchanged : Changed s.queue now op q') : PinOk { s with queue := q' } := by
  have hleases := hs.leases.step hchanged
  cases hchanged with
  | unchanged => exact hs
  | enqueued newID validPayload job hid => exact hs.enqueued hid hguard
  | registered worker | reregistered worker =>
    exact hs.of_columns hleases (hregister worker rfl) rfl
  | refreshed op p f hop hf =>
    refine hs.of_columns hleases (forall_update (fun w hw _ => ?_) hs.workers) rfl
    rw [(hf w).1]
    exact hs.workers w hw
  | claimed attemptID token request => exact absurd rfl (hclaim attemptID token request)
  | extended => exact hs.of_columns hleases hs.workers (map_update fun _ _ => rfl)
  | canceled => exact hs.of_columns hleases hs.workers (map_update fun _ _ => rfl)
  | released jobID => exact absurd rfl (hrelease jobID)
  | finished jobID attemptID token result j q' hheld hends | reclaimed cutoff q' hends =>
    obtain ⟨hpins, hworkers⟩ := hends.pins
    refine hs.of_columns hleases (fun w' hw' => ?_) hpins
    obtain ⟨w, hw, hid⟩ := hworkers w' hw'
    exact hid ▸ hs.workers w hw

omit hs in
theorem register_real (hq : ∀ w ∈ q.workers, w.id ≠ "")
    (hregister : q.registerWorker now worker = .ok q') : ∀ w ∈ q'.workers, w.id ≠ "" := by
  obtain ⟨hreal, ⟨-, rfl⟩ | rfl⟩ := register_spec hregister
  · exact forall_insert hq hreal
  · exact forall_update (fun _ _ _ => hreal) hq

theorem PinOk.step {ev : ℕ × Operation} (hguard : keysPinned s ev = true)
    (hstep : pinStep s ev = some t) : PinOk t := by
  obtain ⟨now, op⟩ := ev
  obtain ⟨q', hq', rfl⟩ := map_eq_some_iff.mp hstep
  have hchanged := hs.leases.changed hq'
  cases op with
  | claim =>
    rcases queueStep_cases hq' with happly | ⟨⟨err, happly⟩, rfl⟩
    · obtain ⟨out, hclaim, rfl⟩ := map_eq_ok happly
      obtain ⟨worker, hclaimed, heq⟩ := claim_spec hclaim
      simp only [Pins.record, hclaim, heq]
      exact hs.claimed hclaimed
    · have hclaim := map_eq_error happly
      simpa only [Pins.record, hclaim] using hs
  | releaseAffinity jobID =>
    rcases queueStep_cases hq' with happly | ⟨⟨err, happly⟩, rfl⟩
    · have hrelease : s.queue.releaseAffinity jobID = .ok q' := happly
      simp only [Pins.record, hrelease]
      exact hs.released hrelease hguard
    · have hrelease : s.queue.releaseAffinity jobID = .error err := happly
      simpa only [Pins.record, hrelease] using hs
  | registerWorker =>
    refine hs.changed (by simp) (by simp) hguard ?_ hchanged
    intro _ _
    rcases queueStep_cases hq' with hregister | ⟨-, rfl⟩
    · exact register_real hs.workers hregister
    · exact hs.workers
  | _ => exact hs.changed (by simp) (by simp) hguard (by simp) hchanged

end Steps

/-- In every run in which a key is shared only by jobs enqueued for the worker it is pinned
to, and released only with its one job, a key that belongs to a worker is claimed by that
worker alone. -/
theorem affinity_kept {s : Pins} {es : List (ℕ × Operation)}
    (hguarded : Machine.Guarded pinStep (fun s ev => keysPinned s ev = true) {} es)
    (hrun : exec pinStep {} es = some s) : s.Kept := by
  have hkept : ∀ s ev s', PinOk s → keysPinned s ev = true → pinStep s ev = some s' → PinOk s' :=
    fun s ev s' hs hguard hstep => hs.step hguard hstep
  have hempty : PinOk {} :=
    { leases := leaseOk_empty
      workers := fun _ hw => absurd hw not_mem_nil
      owned := fun _ _ _ howner => absurd howner.symm (some_ne_none _)
      listed := fun _ _ howner => absurd howner.symm (some_ne_none _)
      shared := fun _ hj => absurd hj not_mem_nil
      real := fun _ _ howner => absurd howner.symm (some_ne_none _) }
  exact (exec_invariant hkept hempty hguarded hrun).kept

/-! ## A task with two workflows -/

def affineJob (workflowID : String) : Job :=
  { idempotencyKey := "task-1:0:" ++ workflowID, taskID := "task-1", workflowID := workflowID,
    affinityKey := "task:task-1" }

def twoWorkers : List (ℕ × Operation) :=
  [(1, .registerWorker { id := "w1" }), (1, .registerWorker { id := "w2" })]

/-- One workflow of the task runs, fails and is retried. -/
def oneWorkflow : List (ℕ × Operation) :=
  twoWorkers ++ [(1, .enqueue "job-1" true (affineJob "build")),
    (2, .claim "attempt-1" "claim-1" (request "w1")),
    (3, .finish "job-1" "attempt-1" "claim-1" { retry := true })]

theorem oneWorkflow_kept :
    ∃ s, exec pinStep {} oneWorkflow = some s ∧ s.owner "task:task-1" = some "w1" ∧ s.Kept := by
  refine ⟨_, exec_get (by decide), by decide, ?_⟩
  exact affinity_kept (by decide) (exec_get _)

/-- Two workflows of the task are dispatched together, and the first is claimed. -/
def twoWorkflows : List (ℕ × Operation) :=
  twoWorkers ++ [(1, .enqueue "job-1" true (affineJob "build")),
    (1, .enqueue "job-2" true (affineJob "test")),
    (2, .claim "attempt-1" "claim-1" (request "w1"))]

/-- The other worker gets the second workflow of the task. -/
theorem twoWorkflows_not_kept :
    ∃ s, exec pinStep {} twoWorkflows = some s ∧ s.owner "task:task-1" = some "w1" ∧
      (∃ out, s.queue.claim 3 "attempt-2" "claim-2" (request "w2") = .ok out ∧
        out.2.affinityKey = "task:task-1") ∧ ¬ s.Kept := by
  refine ⟨_, exec_get (by decide), by decide, ⟨_, rfl, by decide⟩, fun hkept => ?_⟩
  have hsame := hkept 3 "attempt-2" "claim-2" (request "w2") _ rfl (by decide) "w1" (by decide)
  nomatch hsame

end Apiary.Queue
