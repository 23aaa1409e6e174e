import Apiary.Daemon.Instance
import Apiary.Workflow.Invariants

/-!
# Stopping an instance

`StopInstance` cancels the step that registered last, takes the run out of the engine
and persists the interruption; the interruption step of `ForceRestart` does the same.
The engine knows a run only while it is parked or being resumed from a park.  A run on
its first drive is in neither of its maps, and nothing tells the loop, the runner chain
of a step in flight or `settle` that it was stopped.

Each goroutine is a program counter, and a step is one database write, one critical
section of the engine, or one step of the loop.  `returned` and `failovers` record what
the program does not keep: the number of starts when a stop first returned, and the
attempts started after the first one of a step.
-/

namespace Apiary.Daemon

open Config Workflow Option

/-! ## The run and those who hold it -/

/-- Where the engine keeps the run. -/
inductive Hold where
  /-- Driven by the call that created the instance. -/
  | firstDrive
  | parked
  | resuming
  /-- Stopped while it was being resumed; the loop still has to notice. -/
  | flagged
  | gone
  deriving DecidableEq

def Hold.driven : Hold → Bool
  | .firstDrive => true
  | .resuming => true
  | .flagged => true
  | _ => false

/-- What is left of `settle` after its critical section. -/
inductive Settling where
  | idle
  | closing (failed : Bool)
  | completing
  deriving DecidableEq

/-- What a stop does next. -/
inductive Stopper where
  | canceling
  | forgetting
  | releasing
  | marking
  | finished
  deriving DecidableEq

structure StopState where
  drive : DriveState
  hold : Hold
  row : InstanceState := .running
  settling : Settling := .idle
  /-- How often the slot in the task's outstanding count was given back. -/
  released : ℕ := 0
  /-- The unit whose attempt registered its cancel function last. -/
  registered : Option ℕ := none
  canceled : List ℕ := []
  failovers : List ℕ := []
  stoppers : List Stopper := []
  returned : Option ℕ := none

def Mark.isStart : Mark → Bool
  | .started _ => true
  | _ => false

/-- The starts of steps and of runner attempts so far. -/
def StopState.starts (s : StopState) : ℕ :=
  (s.drive.history.filter Mark.isStart).length + s.failovers.length

/-- The stops that hold a slot and have not given it back yet. -/
def StopState.releasing (s : StopState) : ℕ := s.stoppers.count .releasing

/-! ## Steps -/

/-- The loop and its workers, and the end of the daemon's context. -/
def drives : Event → Bool
  | .sched _ => true
  | .worker _ _ => true
  | .cancel _ => true
  | _ => false

/-- The ways to leave a park. -/
def leavesPark : Event → Bool
  | .resolve _ _ => true
  | .wake => true
  | _ => false

def unitAt (s : DriveState) (index unit : ℕ) : Option UnitRun :=
  s.workers[index]?.bind fun w => w.units[unit]?

/-- Each attempt of an agent registers under the instance when it starts, and drops
whatever is registered there when it ends. -/
def registration (s : DriveState) (registered : Option ℕ) : Event → Option ℕ
  | .worker index (.start unit) =>
    if (unitAt s index unit).any fun u => u.step.type = .agent then some s.nextRow else registered
  | .worker index (.finish unit _) =>
    if (unitAt s index unit).any fun u => u.step.type = .agent then none else registered
  | _ => registered

/-- `ExecuteStep` goes on with the next runner of its chain. -/
def StopState.failover (fallbacks : String → ℕ) (s : StopState) (index unit : ℕ) :
    Option StopState :=
  (unitAt s.drive index unit).bind fun u =>
    match u.phase with
    | .running n =>
      if u.step.type = .agent && s.failovers.count n < fallbacks u.step.agent then
        some { s with failovers := n :: s.failovers, registered := some n }
      else none
    | _ => none

/-- `settle`: the critical section, the write of the final state, and the decrement of
the task's count. -/
def StopState.settle (s : StopState) : Option StopState :=
  match s.settling with
  | .closing failed =>
    some { s with row := if failed then .failed else .done, settling := .completing }
  | .completing => some { s with settling := .idle, released := s.released + 1 }
  | .idle =>
    if s.hold.driven then
      match s.drive.phase with
      | .parked =>
        if s.drive.run.stopped then some { s with hold := .gone }
        else
          some { s with
            hold := .parked
            row := .blocked (if s.drive.run.waitStepConfig.2 then .ci else .approval) }
      | .ended outcome =>
        if s.drive.run.stopped then some { s with hold := .gone }
        else some { s with hold := .gone, settling := .closing (outcome = .failed) }
      | _ => none
    else none

/-- `stillParkedLocked` found that the row is no longer that of a park. -/
def StopState.drop (s : StopState) : StopState :=
  { s with hold := .gone, released := s.released + 1 }

/-- `claimParked`, and the step by which the claimed run goes on. -/
def StopState.claim (e : Engine) (s : StopState) (ev : Event) : Option StopState :=
  match s.hold with
  | .parked =>
    if s.row.isParked then
      (step e s.drive ev).map fun t => { s with drive := t, hold := .resuming, row := .running }
    else some s.drop
  | _ => none

/-- `RecheckWait`, as far as it touches the engine. -/
def StopState.recheck (s : StopState) : Option StopState :=
  match s.hold with
  | .parked => some (if s.row.isParked then s else s.drop)
  | _ => none

/-- `StopParked`: drops a parked run and flags one that is being resumed; whether the
engine held it. -/
def StopState.stopParked (s : StopState) : StopState × Bool :=
  match s.hold with
  | .parked => ({ s with hold := .gone }, true)
  | .resuming =>
    ({ s with
       hold := .flagged
       drive := { s.drive with run := { s.drive.run with stopped := true } } }, true)
  | _ => (s, false)

/-- One step of the stop at `index`. -/
def StopState.stop (s : StopState) (index : ℕ) : Option StopState :=
  match s.stoppers[index]? with
  | some .canceling =>
    some { s with
      registered := none
      canceled := s.registered.toList ++ s.canceled
      stoppers := s.stoppers.set index .forgetting }
  | some .forgetting =>
    let out := s.stopParked
    some { out.1 with stoppers := s.stoppers.set index (if out.2 then .releasing else .marking) }
  | some .releasing =>
    some { s with released := s.released + 1, stoppers := s.stoppers.set index .marking }
  | some .marking =>
    some { s with
      row := .blocked .interrupted
      stoppers := s.stoppers.set index .finished
      returned := s.returned.or (some s.starts) }
  | _ => none

inductive StopEvent where
  | loop (ev : Event)
  | failover (index unit : ℕ)
  | settle
  | claim (ev : Event)
  | recheck
  | request
  | stop (index : ℕ)

def stopStep (e : Engine) (fallbacks : String → ℕ) (s : StopState) : StopEvent → Option StopState
  | .loop ev =>
    if s.hold.driven && drives ev then
      (step e s.drive ev).map fun t =>
        { s with drive := t, registered := registration s.drive s.registered ev }
    else none
  | .failover index unit => if s.hold.driven then s.failover fallbacks index unit else none
  | .settle => s.settle
  | .claim ev => if leavesPark ev then s.claim e ev else none
  | .recheck => s.recheck
  | .request => some { s with stoppers := s.stoppers ++ [.canceling] }
  | .stop index => s.stop index

/-- How the engine comes to hold a run: a call drives a new or a resumed instance, or a
parked one is brought back after a restart. -/
inductive Launched : StopState → Prop where
  | driven (d : DriveState) (hinit : Initial d) (htop : d.phase = .top) :
      Launched { drive := d, hold := .firstDrive }
  | parked (d : DriveState) (reason : BlockedReason) (hinit : Initial d)
      (hphase : d.phase = .parked) (hreason : reason ≠ .interrupted) :
      Launched { drive := d, hold := .parked, row := .blocked reason }

/-! ## The possible steps -/

/-- The run can still be driven, or is being settled. -/
def StopState.live (s : StopState) : Bool :=
  match s.hold with
  | .flagged => false
  | .gone => s.settling ≠ .idle
  | _ => true

/-- The possible steps of the whole machine. -/
inductive StopStepped (e : Engine) (s : StopState) : StopEvent → StopState → Prop where
  | looped (ev : Event) (d : DriveState) (registered : Option ℕ) (hdriven : s.hold.driven = true)
      (hdrives : drives ev = true) (hstep : step e s.drive ev = some d) :
      StopStepped e s (.loop ev) { s with drive := d, registered := registered }
  | failedOver (index unit n : ℕ) (u : UnitRun) (hdriven : s.hold.driven = true)
      (hunit : unitAt s.drive index unit = some u) :
      StopStepped e s (.failover index unit)
        { s with failovers := n :: s.failovers, registered := some n }
  | wrote (failed : Bool) (hsettling : s.settling = .closing failed) : StopStepped e s .settle
        { s with row := if failed then .failed else .done, settling := .completing }
  | completed (hsettling : s.settling = .completing) :
      StopStepped e s .settle { s with settling := .idle, released := s.released + 1 }
  | abandoned (hsettling : s.settling = .idle) (hdriven : s.hold.driven = true)
      (hstopped : s.drive.run.stopped = true) : StopStepped e s .settle { s with hold := .gone }
  | parks (reason : BlockedReason) (hreason : reason ≠ .interrupted) (hsettling : s.settling = .idle)
      (hdriven : s.hold.driven = true) (hstopped : s.drive.run.stopped = false) :
      StopStepped e s .settle { s with hold := .parked, row := .blocked reason }
  | closes (failed : Bool) (hsettling : s.settling = .idle) (hdriven : s.hold.driven = true)
      (hstopped : s.drive.run.stopped = false) :
      StopStepped e s .settle { s with hold := .gone, settling := .closing failed }
  | claimed (ev : Event) (d : DriveState) (hleaves : leavesPark ev = true)
      (hhold : s.hold = .parked) (hrow : s.row.isParked = true)
      (hstep : step e s.drive ev = some d) :
      StopStepped e s (.claim ev) { s with drive := d, hold := .resuming, row := .running }
  | refused (ev : Event) (hhold : s.hold = .parked) (hrow : s.row.isParked = false) :
      StopStepped e s (.claim ev) s.drop
  | rechecked (hhold : s.hold = .parked) (hrow : s.row.isParked = true) : StopStepped e s .recheck s
  | dropped (hhold : s.hold = .parked) (hrow : s.row.isParked = false) :
      StopStepped e s .recheck s.drop
  | requested : StopStepped e s .request { s with stoppers := s.stoppers ++ [.canceling] }
  | canceled (index : ℕ) (hat : s.stoppers[index]? = some .canceling) :
      StopStepped e s (.stop index)
        { s with
          registered := none
          canceled := s.registered.toList ++ s.canceled
          stoppers := s.stoppers.set index .forgetting }
  | tookParked (index : ℕ) (hat : s.stoppers[index]? = some .forgetting) (hhold : s.hold = .parked) :
      StopStepped e s (.stop index)
        { s with hold := .gone, stoppers := s.stoppers.set index .releasing }
  | tookResuming (index : ℕ) (hat : s.stoppers[index]? = some .forgetting)
      (hhold : s.hold = .resuming) :
      StopStepped e s (.stop index)
        { s with
          hold := .flagged
          drive := { s.drive with run := { s.drive.run with stopped := true } }
          stoppers := s.stoppers.set index .releasing }
  | missed (index : ℕ) (hat : s.stoppers[index]? = some .forgetting) (hparked : s.hold ≠ .parked)
      (hresuming : s.hold ≠ .resuming) :
      StopStepped e s (.stop index) { s with stoppers := s.stoppers.set index .marking }
  | gaveBack (index : ℕ) (hat : s.stoppers[index]? = some .releasing) :
      StopStepped e s (.stop index)
        { s with released := s.released + 1, stoppers := s.stoppers.set index .marking }
  | marked (index : ℕ) (hat : s.stoppers[index]? = some .marking) : StopStepped e s (.stop index)
        { s with
          row := .blocked .interrupted
          stoppers := s.stoppers.set index .finished
          returned := s.returned.or (some s.starts) }

section Cases

variable {e : Engine} {s t : StopState}

theorem settle_cases (hstep : s.settle = some t) : StopStepped e s .settle t := by
  rw [StopState.settle] at hstep
  split at hstep
  · exact some.inj hstep ▸ .wrote _ ‹_›
  · exact some.inj hstep ▸ .completed ‹_›
  · rename_i hsettling
    obtain ⟨hdriven, hstep⟩ := ite_none_right_eq_some.mp hstep
    split at hstep
    · split at hstep
      · exact some.inj hstep ▸ .abandoned hsettling hdriven ‹_›
      · rename_i hstopped
        simp only [some.injEq] at hstep
        refine hstep ▸ .parks _ ?_ hsettling hdriven (by simpa using hstopped)
        split <;> simp
    · split_ifs at hstep with hstopped
      · exact some.inj hstep ▸ .abandoned hsettling hdriven ‹_›
      · exact some.inj hstep ▸ .closes _ hsettling hdriven (by simpa using hstopped)
    · cases hstep

theorem stopParked_of_not_held (hparked : s.hold ≠ .parked) (hresuming : s.hold ≠ .resuming) :
    s.stopParked = (s, false) := by
  rw [StopState.stopParked]
  split
  · exact absurd ‹_› hparked
  · exact absurd ‹_› hresuming
  · rfl

theorem stop_cases {index : ℕ} (hstep : s.stop index = some t) :
    StopStepped e s (.stop index) t := by
  rw [StopState.stop] at hstep
  split at hstep
  · exact some.inj hstep ▸ .canceled index ‹_›
  · rename_i hat
    rw [some.injEq] at hstep
    by_cases hparked : s.hold = .parked
    · simp only [StopState.stopParked, hparked, ite_true] at hstep
      exact hstep ▸ .tookParked index hat hparked
    by_cases hresuming : s.hold = .resuming
    · simp only [StopState.stopParked, hresuming, ite_true] at hstep
      exact hstep ▸ .tookResuming index hat hresuming
    · rw [stopParked_of_not_held hparked hresuming] at hstep
      exact hstep ▸ .missed index hat hparked hresuming
  · exact some.inj hstep ▸ .gaveBack index ‹_›
  · exact some.inj hstep ▸ .marked index ‹_›
  · cases hstep

theorem stopStep_cases {fallbacks : String → ℕ} {ev : StopEvent}
    (hstep : stopStep e fallbacks s ev = some t) : StopStepped e s ev t := by
  cases ev with
  | loop ev =>
    obtain ⟨hboth, hstep⟩ := ite_none_right_eq_some.mp hstep
    rw [Bool.and_eq_true] at hboth
    obtain ⟨d, hd, rfl⟩ := map_eq_some_iff.mp hstep
    exact .looped ev d _ hboth.1 hboth.2 hd
  | failover index unit =>
    rw [stopStep] at hstep
    split_ifs at hstep with hdriven
    rw [StopState.failover, bind_eq_some_iff] at hstep
    obtain ⟨u, hunit, hstep⟩ := hstep
    split at hstep
    · obtain ⟨-, ⟨⟩⟩ := ite_none_right_eq_some.mp hstep
      exact .failedOver index unit _ u hdriven hunit
    · cases hstep
  | settle => exact settle_cases hstep
  | claim ev =>
    rw [stopStep] at hstep
    split_ifs at hstep with hleaves
    rw [StopState.claim] at hstep
    split at hstep
    · rename_i hhold
      split_ifs at hstep with hrow
      · obtain ⟨d, hd, rfl⟩ := map_eq_some_iff.mp hstep
        exact .claimed ev d hleaves hhold ‹_› hd
      · exact some.inj hstep ▸ .refused ev hhold (by simpa using hrow)
    · cases hstep
  | recheck =>
    rw [stopStep, StopState.recheck] at hstep
    split at hstep
    · rename_i hhold
      simp only [some.injEq] at hstep
      split_ifs at hstep with hrow
      · exact hstep ▸ .rechecked hhold ‹_›
      · exact hstep ▸ .dropped hhold (by simpa using hrow)
    · cases hstep
  | request =>
    simp only [stopStep, some.injEq] at hstep
    exact hstep ▸ .requested
  | stop => exact stop_cases hstep

end Cases

/-! ## Two workflows

A patch is written, approved and landed.  The tests of later modules stop it at its gate
and on its first step.  A note is written in one step. -/

def patchWorkflow : WorkflowConfig where
  id := "patch"
  steps :=
    [{ id := "write", agent := "coder" },
     { id := "gate", type := .approval, seqDependsOn := ["write"], approvers := ["alice"] },
     { id := "land", agent := "coder", seqDependsOn := ["gate"] }]

def patchStart : StopState :=
  { drive := { run := initDAG "wf-1" patchWorkflow {} [] fun _ => none }, hold := .firstDrive }

theorem patchStart_launched : Launched patchStart :=
  .driven _ (.fresh "wf-1" patchWorkflow {} [] fun _ => none) rfl

/-- The patch is written, and the run parks at its gate. -/
def patchParks : List StopEvent :=
  (List.replicate 4 (Event.sched 0) ++ runWorker 0 { success := true } ++
    List.replicate 7 (Event.sched 0)).map .loop ++ [.settle]

def noteWorkflow : WorkflowConfig where
  id := "note"
  steps := [{ id := "write", agent := "coder" }]

/-- The loop drives the note, and goes on for a few steps after its result. -/
def noteDriven (result : StepResult) (rest : ℕ) : List StopEvent :=
  (List.replicate 4 (Event.sched 0) ++ runWorker 0 result ++
    List.replicate rest (Event.sched 0)).map .loop

end Apiary.Daemon
