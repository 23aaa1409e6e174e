import Apiary.Core.Table
import Apiary.Daemon.Dispatch

/-!
# One live instance for each task and workflow

A step adds at most the starts it admits to what is live or starting for a pair of a task
and a workflow.  So no pair ever has two live instances as long as every start is admitted
while nothing of its pair is live or starting.  The guards of the dispatcher do not see to
that: a resume request and the first delivery of a job look at no other instance, the
startup pass looks at interrupted ones, and no guard sees a start whose row is not
inserted yet.
-/

namespace Apiary.Daemon

open Config (ResumePolicy)
open List Option InstanceState Machine Thread WorkflowInstance Dispatcher

variable {key : RouteKey} {i : ℕ} {th : Thread} {ev : DispatchEvent}

/-- A running or parked instance of the pair that is not a sub-workflow's. -/
def WorkflowInstance.isLive (key : RouteKey) (inst : WorkflowInstance) : Bool :=
  inst.key = key && inst.parent = none && inst.state.isActive

/-- The thread inserts a row for the pair without a further check. -/
def Thread.starts (key : RouteKey) : Thread → Bool
  | .dispatching _ k => k = key
  | .executing k => k = key
  | .resuming _ k _ => k = key
  | _ => false

/-- Two live instances of one workflow for one task are the same instance. -/
def Exclusive (rows : List WorkflowInstance) : Prop :=
  ∀ (key : RouteKey) (i j : ℕ) (a b : WorkflowInstance), rows[i]? = some a →
    rows[j]? = some b → a.isLive key = true → b.isLive key = true → i = j

namespace Dispatcher

open List Option

/-! ## The condition -/

/-- Nothing is live or starting for the pair. -/
def idle (s : Dispatcher) (key : RouteKey) : Bool :=
  !s.rows.any (isLive key) && !s.threads.any (starts key)

/-- The pairs for which an event admits a start, past the checks of its path. -/
def startsFor (s : Dispatcher) : DispatchEvent → List RouteKey
  | .route i dropped =>
    match s.threads[i]? with
    | some (.routing _ found) => if s.queued then [] else s.surviving dropped found.keys
    | _ => []
  | .deliver j once =>
    match s.jobs[j]? with
    | some job => if s.startsJob job once then [job.key] else []
    | none => []
  | .resume row policy =>
    match s.rows[row]? with
    | some inst => if startResume policy inst then [inst.key] else []
    | none => []
  | .startup tasks => (s.resumes tasks).map WorkflowInstance.key
  | _ => []

/-- Every start is admitted while nothing of its pair is live or starting. -/
def startsAlone (s : Dispatcher) (ev : DispatchEvent) : Bool := (s.startsFor ev).all s.idle

/-! ## What is live or starting -/

def load (s : Dispatcher) (key : RouteKey) : ℕ :=
  s.rows.countP (isLive key) + s.threads.countP (starts key)

variable {s t : Dispatcher}

theorem load_eq_zero_iff : s.load key = 0 ↔ s.idle key = true := by
  simp only [load, Nat.add_eq_zero_iff, countP_eq_zero, idle, Bool.and_eq_true,
    Bool.not_eq_eq_eq_not, Bool.not_true, List.any_eq_false]

theorem foldl_enqueue (keys : List RouteKey) (s : Dispatcher) :
    (keys.foldl enqueue s).rows = s.rows ∧ (keys.foldl enqueue s).threads = s.threads := by
  induction keys generalizing s with
  | nil => exact ⟨rfl, rfl⟩
  | cons key keys ih =>
    have hsame : (s.enqueue key).rows = s.rows ∧ (s.enqueue key).threads = s.threads := by
      rw [enqueue]
      split <;> exact ⟨rfl, rfl⟩
    obtain ⟨hrows, hthreads⟩ := ih (s.enqueue key)
    exact ⟨hrows.trans hsame.1, hthreads.trans hsame.2⟩

theorem countP_dispatching (cell : String) (keys : List RouteKey) (key : RouteKey) :
    (keys.map (dispatching cell)).countP (starts key) = keys.count key := by
  rw [countP_map, List.count]
  apply countP_congr
  intro other _
  simp [starts]

theorem load_fanOut {cell : String} {found : Matches}
    (hat : s.threads[i]? = some (.routing cell found)) (keys : List RouteKey) (key : RouteKey) :
    (s.fanOut i cell keys).load key = s.load key + (if s.queued then [] else keys).count key := by
  have herased : (s.threads.eraseIdx i).countP (starts key) =
      s.threads.countP (starts key) := Table.countP_eraseIdx hat (starts key)
  rw [fanOut]
  split
  · obtain ⟨hrows, hthreads⟩ := foldl_enqueue keys
      { s with threads := s.threads.eraseIdx i, inFlight := s.inFlight.erase cell }
    rw [load, hrows, hthreads]
    exact congrArg _ herased
  · rw [load, load, countP_append, countP_dispatching, herased, Nat.add_assoc]

theorem load_startup (s : Dispatcher) (tasks : String → Option TaskState) (key : RouteKey) :
    (s.startup tasks).load key =
      s.load key + ((s.resumes tasks).map WorkflowInstance.key).count key := by
  have hresuming : ((s.resumes tasks).map fun inst =>
      resuming inst.id inst.key true).countP (starts key) =
        ((s.resumes tasks).map WorkflowInstance.key).count key := by
    rw [countP_map, List.count, countP_map]
    apply countP_congr
    intro inst _
    simp [starts]
  rw [load, load, startup, countP_append, hresuming, Nat.add_assoc]

/-- A thread that will insert a row for the pair. -/
theorem load_push (s : Dispatcher) (jobs : List QueuedJob)
    (hkey : ∀ other, th.starts other = decide (key = other)) (other : RouteKey) :
    load { s with jobs := jobs, threads := s.threads ++ [th] } other =
      s.load other + [key].count other := by
  simp only [load, countP_append, countP_singleton, hkey other, count_singleton]
  simp [Nat.add_assoc]

/-- The row takes over from the thread that inserts it. -/
theorem load_create (hat : s.threads[i]? = some th)
    (hkey : ∀ other, th.starts other = decide (key = other)) (now : ℕ) (source : Option ℕ)
    (cell : Option String) (claim : Option RouteKey) (other : RouteKey) :
    (s.create i now key source cell claim).load other = s.load other := by
  have hcounts := Table.countP_set hat (starts other) (.driving s.rows.length cell claim)
  have hdriving : (driving s.rows.length cell claim).starts other = false := rfl
  rw [hdriving, hkey other] at hcounts
  simp only [load, create, countP_append, countP_singleton, isLive,
    WorkflowInstance.key, isActive]
  by_cases hsame : key = other
  · simp [hsame] at hcounts ⊢
    omega
  · simp [hsame] at hcounts ⊢
    omega

theorem load_setState {row : ℕ} {inst : WorkflowInstance} (hat : s.rows[row]? = some inst)
    (hactive : inst.state.isActive = true) (st : InstanceState) (key : RouteKey) :
    (s.setState row inst st).load key ≤ s.load key := by
  have hcounts := Table.countP_set hat (isLive key) { inst with state := st }
  have hlive : isLive key { inst with state := st } = true →
      isLive key inst = true := by
    simp only [WorkflowInstance.isLive, WorkflowInstance.key, hactive, Bool.and_eq_true, and_true]
    exact And.left
  have hle : (isLive key { inst with state := st }).toNat ≤
      (isLive key inst).toNat := Bool.toNat_le_toNat hlive
  simp only [load, setState]
  omega

theorem load_restart (s : Dispatcher) (queued : Bool) (policy : String → Option ResumePolicy)
    (key : RouteKey) : (s.restart queued policy).load key ≤ s.load key := by
  have hrows : (s.restart queued policy).rows.countP (isLive key) ≤
      s.rows.countP (isLive key) := by
    simp only [restart, countP_map]
    apply countP_mono_left
    intro inst _ hlive
    simp only [Function.comp_apply] at hlive
    split at hlive
    · simp [isLive, isActive, isParked] at hlive
    · exact hlive
  exact Nat.le_trans hrows (Nat.le_add_right _ _)

/-- The events that can let a start in. -/
def letsIn : DispatchEvent → Bool
  | .route .. | .deliver .. | .resume .. | .startup _ => true
  | _ => false

theorem letsIn_of_startsFor (hstarts : key ∈ s.startsFor ev) : letsIn ev = true := by
  cases ev <;> first | rfl | cases hstarts

theorem step_load_eq (hletsIn : letsIn ev = true) (hstep : s.step ev = some t) (key : RouteKey) :
    t.load key = s.load key + (s.startsFor ev).count key := by
  cases ev with
  | route =>
    simp only [step] at hstep
    split at hstep
    · rename_i hat
      cases hstep
      simp only [startsFor, hat]
      exact load_fanOut hat _ key
    · cases hstep
  | deliver =>
    obtain ⟨job, hat, hstep⟩ := bind_eq_some_iff.mp hstep
    simp only [ite_none_right_eq_some, some.injEq] at hstep
    obtain ⟨-, rfl⟩ := hstep
    simp only [startsFor, hat, deliver]
    split
    · exact load_push s _ (fun _ => rfl) key
    · rfl
  | resume =>
    obtain ⟨inst, hat, hstep⟩ := bind_eq_some_iff.mp hstep
    simp only [ite_none_right_eq_some, some.injEq] at hstep
    obtain ⟨haccepted, rfl⟩ := hstep
    simp only [startsFor, hat, haccepted, if_true]
    exact load_push s s.jobs (fun _ => rfl) key
  | startup tasks =>
    simp only [step, ite_none_left_eq_some, some.injEq] at hstep
    obtain ⟨-, rfl⟩ := hstep
    exact load_startup s tasks key
  | _ => cases hletsIn

/-- A step adds at most the starts it admits. -/
theorem step_load (hstep : s.step ev = some t) (key : RouteKey) :
    t.load key ≤ s.load key + (s.startsFor ev).count key := by
  cases ev with
  | poll =>
    simp only [step, ite_none_right_eq_some, some.injEq] at hstep
    obtain ⟨-, rfl⟩ := hstep
    simp [load, startsFor, starts]
  | route | deliver | resume | startup => exact Nat.le_of_eq (step_load_eq rfl hstep key)
  | release =>
    simp only [step, ite_none_left_eq_some, some.injEq] at hstep
    obtain ⟨-, rfl⟩ := hstep
    exact Nat.le_refl _
  | closeJob =>
    obtain ⟨job, -, rfl⟩ := map_eq_some_iff.mp hstep
    exact Nat.le_refl _
  | newRound =>
    rw [step, some.injEq] at hstep
    subst hstep
    exact Nat.le_refl _
  | create =>
    simp only [step] at hstep
    split at hstep
    · rename_i hat
      cases hstep
      exact Nat.le_of_eq (load_create hat (fun _ => rfl) ..)
    · rename_i hat
      cases hstep
      exact Nat.le_of_eq (load_create hat (fun _ => rfl) ..)
    · rename_i hat
      cases hstep
      exact Nat.le_of_eq (load_create hat (fun _ => rfl) ..)
    · cases hstep
  | returned i =>
    simp only [step] at hstep
    split at hstep
    · simp only [ite_none_left_eq_some, some.injEq] at hstep
      obtain ⟨-, rfl⟩ := hstep
      have herased := (eraseIdx_sublist s.threads i).countP_le (p := starts key)
      exact Nat.add_le_add_left herased _
    · cases hstep
  | createChild =>
    obtain ⟨inst, -, hstep⟩ := bind_eq_some_iff.mp hstep
    simp only [ite_none_right_eq_some, some.injEq] at hstep
    obtain ⟨-, rfl⟩ := hstep
    simp [load, createChild, WorkflowInstance.isLive, startsFor]
  | park =>
    obtain ⟨inst, hat, hstep⟩ := bind_eq_some_iff.mp hstep
    simp only [ite_none_right_eq_some, some.injEq, Bool.and_eq_true, decide_eq_true_eq] at hstep
    obtain ⟨⟨hrunning, -⟩, rfl⟩ := hstep
    exact load_setState hat (by simp [hrunning, isActive]) _ key
  | wake =>
    obtain ⟨inst, hat, hstep⟩ := bind_eq_some_iff.mp hstep
    simp only [ite_none_right_eq_some, some.injEq] at hstep
    obtain ⟨hparked, rfl⟩ := hstep
    have hle := load_setState hat (by simp [hparked, isActive]) .running key
    simpa [load, setState, starts, startsFor] using hle
  | finish =>
    obtain ⟨inst, hat, hstep⟩ := bind_eq_some_iff.mp hstep
    simp only [ite_none_right_eq_some, some.injEq, Bool.and_eq_true] at hstep
    obtain ⟨⟨hactive, -⟩, rfl⟩ := hstep
    exact load_setState hat hactive _ key
  | restart queued policy =>
    rw [step, some.injEq] at hstep
    subst hstep
    exact load_restart s queued policy key

theorem startsFor_nodup (s : Dispatcher) (ev : DispatchEvent) : (s.startsFor ev).Nodup := by
  cases ev with
  | route =>
    simp only [startsFor]
    split
    · rename_i found _
      split
      · exact nodup_nil
      · have hkeys : found.keys.Nodup := found.nodup.map fun a b h => (Prod.mk.inj h).2
        exact hkeys.filter _
    · exact nodup_nil
  | deliver | resume =>
    simp only [startsFor]
    split
    · split <;> simp
    · exact nodup_nil
  | startup => exact Startup.resumeAutoInterrupted_keys_nodup
  | _ => exact nodup_nil

/-- At most one instance of each pair is live or starting. -/
def Single (s : Dispatcher) : Prop := ∀ key, s.load key ≤ 1

theorem Single.step (hs : Single s) (halone : s.startsAlone ev = true) (hstep : s.step ev = some t) :
    Single t := by
  intro key
  have hload := step_load hstep key
  by_cases hstarts : key ∈ s.startsFor ev
  · have hidle := load_eq_zero_iff.mpr (List.all_eq_true.mp halone key hstarts)
    have hcount := nodup_iff_count_le_one.mp (s.startsFor_nodup ev) key
    omega
  · rw [count_eq_zero_of_not_mem hstarts] at hload
    exact Nat.le_trans hload (hs key)

theorem Single.exclusive (hs : Single s) : Exclusive s.rows := by
  intro key
  apply Table.countP_le_one_iff.mp
  exact Nat.le_trans (Nat.le_add_right _ _) (hs key)

/-- In every run from an empty database in which each start is admitted while nothing of
its pair is live or starting, whatever the interleaving of polls, deliveries, resumes and
restarts, no two instances of one workflow for one task are live at once. -/
theorem exclusive_of_startsAlone {queued : Bool} {policy : String → Option ResumePolicy}
    {es : List DispatchEvent} {t : Dispatcher}
    (halone : Machine.Guarded step (fun s ev => s.startsAlone ev = true)
      { queued := queued, policy := policy } es)
    (hrun : exec step { queued := queued, policy := policy } es = some t) :
    Exclusive t.rows := by
  have hkept : ∀ s ev s', Single s → s.startsAlone ev = true → s.step ev = some s' → Single s' :=
    fun s ev s' hs halone hstep => hs.step halone hstep
  have hstart : Single { queued := queued, policy := policy } := fun key => by simp [load]
  exact (exec_invariant hkept hstart halone hrun).exclusive

/-- A poll starts a delivery, which fails. -/
def failedDelivery : List DispatchEvent :=
  [.startup fun _ => none, .poll "cell-1" ⟨"task-1", ["deliver"], nodup_singleton _⟩,
    .route 0 [], .create 0 10, .finish 0 .failed]

theorem resumedDelivery_exclusive : ∃ t,
    exec step {} (failedDelivery ++ [.resume 0 (some .allowed), .create 1 20]) = some t ∧
      t.rows.map (fun inst => (inst.state, inst.resumedFrom)) =
        [(.failed, none), (.running, some 0)] ∧
      Exclusive t.rows := by
  refine ⟨_, exec_get (by decide), by decide, ?_⟩
  exact exclusive_of_startsAlone (by decide) (exec_get _)

/-- Two operators resume the failed delivery: both requests are accepted, since neither looks
for a descendant of the other, and both descendants run. -/
theorem resumedTwice_not_exclusive : ∃ t,
    exec step {} (failedDelivery ++ [.resume 0 (some .allowed),
      .resume 0 (some .allowed), .create 1 20, .create 2 21]) = some t ∧
      ¬ Exclusive t.rows := by
  refine ⟨_, exec_get (by decide), fun hexclusive => ?_⟩
  nomatch hexclusive ("task-1", "deliver") 1 2 _ _ rfl rfl (by decide) (by decide)

/-! ## The condition is needed -/

theorem Thread.starts_eq (hstarts : th.starts key = true) (other : RouteKey) :
    th.starts other = decide (key = other) := by
  cases th with
  | routing | driving => cases hstarts
  | _ =>
    rw [starts, decide_eq_true_eq] at hstarts
    subst hstarts
    rfl

/-- A start goes through: nothing is checked any more. -/
theorem step_create (hat : s.threads[i]? = some th) (hstarts : th.starts key = true) (now : ℕ) :
    ∃ source cell claim,
    s.step (.create i now) = some (s.create i now key source cell claim) := by
  cases th with
  | dispatching cell k =>
    obtain rfl : k = key := by simpa [starts] using hstarts
    exact ⟨none, some cell, none, by simp [step, hat]⟩
  | executing k =>
    obtain rfl : k = key := by simpa [starts] using hstarts
    exact ⟨none, none, none, by simp [step, hat]⟩
  | resuming source k auto =>
    obtain rfl : k = key := by simpa [starts] using hstarts
    exact ⟨some source, none, if auto then some k else none, by simp [step, hat]⟩
  | routing | driving => cases hstarts

theorem exists_all_created (key : RouteKey) (n : ℕ)
    (hstarting : s.threads.countP (starts key) = n) :
    ∃ es u, exec step s es = some u ∧
      u.rows.countP (isLive key) = s.load key := by
  induction n generalizing s with
  | zero => exact ⟨[], s, rfl, by rw [load, hstarting, Nat.add_zero]⟩
  | succ n ih =>
    have hpos : 0 < s.threads.countP (starts key) := by
      rw [hstarting]
      exact Nat.succ_pos n
    obtain ⟨th, hmem, hstarts⟩ := countP_pos_iff.mp hpos
    obtain ⟨i, hat⟩ := mem_iff_getElem?.mp hmem
    obtain ⟨source, cell, claim, hstep⟩ := step_create hat hstarts 0
    have hsame := load_create hat (Thread.starts_eq hstarts) 0 source cell claim key
    have hcounts := Table.countP_set hat (Thread.starts key) (.driving s.rows.length cell claim)
    rw [hstarts, hstarting] at hcounts
    have hfewer : (s.create i 0 key source cell claim).threads.countP (starts key) = n :=
      Nat.succ.inj hcounts
    obtain ⟨es, u, hrun, hrows⟩ := ih hfewer
    refine ⟨.create i 0 :: es, u, ?_, hrows.trans hsame⟩
    rw [exec_cons, hstep]
    exact hrun

/-- A start admitted while something of its pair is live or starting can end in two live
instances. -/
theorem not_exclusive_of_start (hstep : s.step ev = some t) (hnot : s.startsAlone ev = false) :
    ∃ es u, exec step t es = some u ∧ ¬ Exclusive u.rows := by
  obtain ⟨key, hstarts, hbusy⟩ := List.all_eq_false.mp hnot
  have hload : s.load key ≠ 0 := fun hzero => hbusy (load_eq_zero_iff.mp hzero)
  obtain ⟨es, u, hrun, hrows⟩ := exists_all_created key _ (rfl : t.threads.countP _ = _)
  refine ⟨es, u, hrun, ?_⟩
  intro hexclusive
  have hone := Table.countP_le_one_iff.mpr (hexclusive key)
  have hmore := step_load_eq (letsIn_of_startsFor hstarts) hstep key
  have hcount := count_pos_iff.mpr hstarts
  omega

/-- The second resume of the failed delivery. -/
theorem resumedTwice_breaks : ∃ s t,
    exec step {} (failedDelivery ++ [.resume 0 (some .allowed)]) = some s ∧
      step s (.resume 0 (some .allowed)) = some t ∧
      ∃ es u, exec step t es = some u ∧ ¬ Exclusive u.rows := by
  refine ⟨_, _, exec_get (by decide), (Option.some_get (by decide)).symm, ?_⟩
  exact not_exclusive_of_start (Option.some_get _).symm (by decide)

end Dispatcher

end Apiary.Daemon
