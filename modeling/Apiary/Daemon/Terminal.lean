import Apiary.Daemon.Stop
import Apiary.Queue.Store

/-!
# The life of an instance row

Everyone who writes the state of one row: the engine that drives the run, the stops
that operators and resolved-item checks ask for, force restarts, the queue that settles
the job behind a reservation, and the passes of a starting daemon.  A reservation is
left by one conditional write, so exactly one of those who want it gets it.  All other
writes are unconditional: what they are based on was read before.

`StopInstance` reads the row only to tell a reservation from a run.  A run that has ended
is interrupted like any other, and so is one that ends after the stop has begun.
-/

namespace Apiary.Daemon

open Config Workflow Option Machine

variable {stopper : Stopper} {ev : StopEvent} {row : InstanceState} {fallbacks : String → ℕ}

/-! ## The row and its writers -/

structure Life where
  stop : StopState
  /-- The job behind a reservation. -/
  job : Option Queue.JobState := none
  /-- Stops that found the row queued and have not tried to cancel it yet. -/
  readers : ℕ := 0
  /-- Resolved-item checks that listed the instance and have not stopped it yet. -/
  listed : ℕ := 0
  /-- The daemon is still in its startup passes. -/
  starting : Bool := false

/-- `instanceStateForJob`. -/
def instanceStateForJob : Queue.JobState → InstanceState
  | .succeeded => .done
  | .canceled => .canceled
  | _ => .failed

def Life.write (s : Life) (row : InstanceState) : Life := { s with stop := { s.stop with row := row } }

/-- `LeaveQueuedState`. -/
def Life.leaveQueuedState (s : Life) (row : InstanceState) : Life × Bool :=
  if s.stop.row = .queued then (s.write row, true) else (s, false)

/-- `RunReservedInstance`: the run takes its reservation over, and nothing runs when
another was first. -/
def Life.runReservedInstance (s : Life) (d : DriveState) : Life :=
  let out := s.leaveQueuedState .running
  if out.2 then
    { out.1 with stop := { out.1.stop with drive := d, hold := .firstDrive } }
  else s

/-- `StopInstance` reads the row, and goes on to stop a run unless the row is queued. -/
def Life.stopInstance (s : Life) : Life :=
  if s.stop.row = .queued then { s with readers := s.readers + 1 }
  else { s with stop := { s.stop with stoppers := s.stop.stoppers ++ [.canceling] } }

/-- A stop that found the row queued cancels the reservation.  When another was first it
goes on as if the run had started. -/
def Life.cancelReservation (s : Life) : Option Life :=
  match s.readers with
  | 0 => none
  | readers + 1 =>
    let out := { s with readers := readers }.leaveQueuedState .canceled
    some (if out.2 then out.1 else { s with readers := readers }.stopInstance)

/-- `ForceRestart` lists the instances of the cell and interrupts those that are not
terminal. -/
def Life.forceRestart (s : Life) : Life :=
  if s.stop.row.isTerminal then s
  else { s with stop := { s.stop with stoppers := s.stop.stoppers ++ [.forgetting] } }

/-- `checkResolved` lists the running instances of its source. -/
def Life.checkResolved (s : Life) : Life :=
  if s.stop.row = .running then { s with listed := s.listed + 1 } else s

/-- `settleRemoteQueueJob`, for a job that carries a reservation. -/
def Life.settleQueueJob (s : Life) : Option Life :=
  match s.job with
  | some state =>
    if state.isTerminal then some (s.leaveQueuedState (instanceStateForJob state)).1 else none
  | none => none

/-- The process dies; the tables stay. -/
def Life.crash (s : Life) : Life :=
  { stop := { drive := s.stop.drive, hold := .gone, row := s.stop.row }, job := s.job, starting := true }

/-- `ReconcileOrphanWorkflowInstances`. -/
def Life.reconcileRunning (s : Life) : Life :=
  if s.stop.row = .running then s.write (.blocked .interrupted) else s

/-- `ReconcileOrphanQueuedInstances`. -/
def Life.reconcileQueued (s : Life) : Life :=
  if s.job.all Queue.JobState.isTerminal then (s.leaveQueuedState (.blocked .interrupted)).1 else s

/-- `rehydrateParkedApprovals` and `rehydrateParkedWaits` bring a parked run back. -/
def Life.rehydrate (s : Life) (d : DriveState) : Option Life :=
  if s.stop.row.isParked && s.stop.hold = .gone && s.stop.settling = .idle then
    some { s with stop := { s.stop with drive := d, hold := .parked } }
  else none

inductive LifeEvent where
  | engine (ev : StopEvent)
  | run (d : DriveState)
  | stopInstance
  | cancelReservation
  | checkResolved
  | stopResolved
  | forceRestart
  | job (state : Queue.JobState)
  | settleQueueJob
  | abandonReservation
  | crash
  | reconcileRunning
  | reconcileQueued
  | rehydrate (d : DriveState)
  | started

/-- Stops enter the engine through `StopInstance` only. -/
def isRequest : StopEvent → Bool
  | .request => true
  | _ => false

def lifeStep (e : Engine) (fallbacks : String → ℕ) (s : Life) : LifeEvent → Option Life
  | .engine ev =>
    if isRequest ev then none
    else (stopStep e fallbacks s.stop ev).map fun t => { s with stop := t }
  | .run d => some (s.runReservedInstance d)
  | .stopInstance => some s.stopInstance
  | .cancelReservation => s.cancelReservation
  | .checkResolved => some s.checkResolved
  | .stopResolved =>
    if s.listed = 0 then none else some { s with listed := s.listed - 1 }.stopInstance
  | .forceRestart => some s.forceRestart
  | .job state => some { s with job := some state }
  | .settleQueueJob => s.settleQueueJob
  | .abandonReservation => some (s.leaveQueuedState .canceled).1
  | .crash => some s.crash
  | .reconcileRunning => if s.starting then some s.reconcileRunning else none
  | .reconcileQueued => if s.starting then some s.reconcileQueued else none
  | .rehydrate d => if s.starting then s.rehydrate d else none
  | .started => some { s with starting := false }

/-- A row begins with its run, as the park of an earlier process, or as a reservation. -/
inductive Begun : Life → Prop where
  | launched (s : StopState) (hlaunched : Launched s) : Begun { stop := s }
  | reserved (d : DriveState) (job : Option Queue.JobState) :
      Begun { stop := { drive := d, hold := .gone, row := .queued }, job := job }

/-! ## Who can still write -/

/-- A stop or a force restart has begun and has not written yet. -/
def Life.stopping (s : Life) : Bool := s.readers ≠ 0 || s.stop.stoppers.any (· ≠ .finished)

def Settling.isClosing : Settling → Bool
  | .closing _ => true
  | _ => false

/-- No stop begins on a row that is terminal, and none is under way when another writer
ends the row. -/
def undisturbed (s : Life) : LifeEvent → Bool
  | .stopInstance => !s.stop.row.isTerminal
  | .stopResolved => !s.stop.row.isTerminal
  | .engine .settle => !s.stop.settling.isClosing || !s.stopping
  | .settleQueueJob => s.stop.row ≠ .queued || !s.stopping
  | .abandonReservation => s.stop.row ≠ .queued || !s.stopping
  | .cancelReservation =>
    s.stop.row ≠ .queued || !{ s with readers := s.readers - 1 }.stopping
  | _ => true

/-- What the writers have agreed on: a reservation has no run, a run that is being closed
has left the engine, and a terminal row has nobody left who would write it. -/
structure LifeOk (s : Life) : Prop where
  queued : s.stop.row = .queued → s.stop.hold = .gone ∧ s.stop.settling = .idle
  closing : s.stop.settling ≠ .idle → s.stop.hold = .gone
  ended : s.stop.row.isTerminal = true →
    s.stop.hold = .gone ∧ s.stop.settling.isClosing = false ∧ s.stopping = false

section Steps

variable {e : Engine} {s : Life} {t : StopState}

theorem not_stopping_at (hquiet : s.stopping = false) {index : ℕ}
    (hat : s.stop.stoppers[index]? = some stopper) : stopper = .finished := by
  rw [Life.stopping, Bool.or_eq_false_iff, List.any_eq_false] at hquiet
  have hfinished := hquiet.2 stopper (List.mem_of_getElem? hat)
  simpa using hfinished

namespace LifeOk

open Option

variable (hs : LifeOk s)

include hs

theorem idle_of_held (hheld : s.stop.hold ≠ .gone) : s.stop.settling = .idle := by
  by_contra hbusy
  exact hheld (hs.closing hbusy)

theorem not_queued (hheld : s.stop.hold ≠ .gone) : s.stop.row ≠ .queued :=
  fun hqueued => hheld (hs.queued hqueued).1

theorem not_terminal (hheld : s.stop.hold ≠ .gone) : s.stop.row.isTerminal = false := by
  by_contra hterminal
  exact hheld (hs.ended (by simpa using hterminal)).1

/-- A stop that has not written yet keeps the row open. -/
theorem not_terminal_of_stopper {index : ℕ} (hat : s.stop.stoppers[index]? = some stopper)
    (hbusy : stopper ≠ .finished) : s.stop.row.isTerminal = false := by
  by_contra hterminal
  exact hbusy (not_stopping_at (hs.ended (by simpa using hterminal)).2.2 hat)

omit hs in
/-- An open row that is not queued leaves only the closing of the run to check. -/
theorem of_open (hqueued : s.stop.row ≠ .queued) (hopen : s.stop.row.isTerminal = false)
    (hclosing : s.stop.settling ≠ .idle → s.stop.hold = .gone) : LifeOk s where
  queued hrow := absurd hrow hqueued
  closing := hclosing
  ended hterminal := by rw [hopen] at hterminal; cases hterminal

/-- A step that writes no open row and takes no hold keeps the invariant. -/
theorem kept_open (hopen : s.stop.row.isTerminal = false) {t : Life}
    (hrow : t.stop.row = s.stop.row) (hhold : s.stop.hold = .gone → t.stop.hold = .gone)
    (hsettling : t.stop.settling = s.stop.settling) : LifeOk t where
  queued hqueued := by
    rw [hrow] at hqueued
    rw [hsettling]
    exact ⟨hhold (hs.queued hqueued).1, (hs.queued hqueued).2⟩
  closing hbusy := hhold (hs.closing (hsettling ▸ hbusy))
  ended hterminal := by rw [hrow, hopen] at hterminal; cases hterminal

/-- A step of the engine, no stop request being behind it, keeps the invariant. -/
theorem engine (hrequest : isRequest ev = false) (hguard : undisturbed s (.engine ev) = true)
    (hstep : StopStepped e s.stop ev t) : LifeOk { s with stop := t } := by
  cases hstep with
  | looped | failedOver => exact ⟨hs.queued, hs.closing, hs.ended⟩
  | wrote failed hsettling =>
    have hgone : s.stop.hold = .gone := hs.closing (by rw [hsettling]; simp)
    have hquiet : s.stopping = false := by
      simpa [undisturbed, hsettling, Settling.isClosing] using hguard
    constructor
    · intro hqueued
      cases failed <;> cases hqueued
    · intro _
      exact hgone
    · intro _
      exact ⟨hgone, rfl, hquiet⟩
  | completed hsettling =>
    have hgone : s.stop.hold = .gone := hs.closing (by rw [hsettling]; simp)
    constructor
    · intro _
      exact ⟨hgone, rfl⟩
    · intro hbusy
      exact absurd rfl hbusy
    · intro hterminal
      exact ⟨hgone, rfl, (hs.ended hterminal).2.2⟩
  | abandoned hsettling hdriven =>
    exact hs.kept_open (hs.not_terminal (by rintro hgone; simp [hgone, Hold.driven] at hdriven))
      rfl (fun _ => rfl) rfl
  | parks reason hreason hsettling => exact .of_open nofun rfl (fun hbusy => absurd hsettling hbusy)
  | closes failed hsettling hdriven =>
    have hheld : s.stop.hold ≠ .gone := by rintro hgone; simp [hgone, Hold.driven] at hdriven
    exact .of_open (hs.not_queued hheld) (hs.not_terminal hheld) (fun _ => rfl)
  | claimed ev d hleaves hhold =>
    have hidle := hs.idle_of_held (by simp [hhold])
    exact .of_open nofun rfl (fun hbusy => absurd hidle hbusy)
  | refused ev hhold | dropped hhold =>
    exact hs.kept_open (hs.not_terminal (by simp [hhold])) rfl (fun _ => rfl) rfl
  | rechecked => exact hs
  | requested => cases hrequest
  | canceled index hat | missed index hat | gaveBack index hat =>
    exact hs.kept_open (hs.not_terminal_of_stopper hat nofun) rfl id rfl
  | tookParked index hat =>
    exact hs.kept_open (hs.not_terminal_of_stopper hat nofun) rfl (fun _ => rfl) rfl
  | tookResuming index hat hhold =>
    refine hs.kept_open (hs.not_terminal_of_stopper hat nofun) rfl ?_ rfl
    intro hgone
    rw [hhold] at hgone
    cases hgone
  | marked => exact .of_open nofun rfl hs.closing

theorem stopInstance (hopen : s.stop.row.isTerminal = false) : LifeOk s.stopInstance := by
  rw [Life.stopInstance]
  split
  · exact hs.kept_open hopen rfl id rfl
  · exact hs.kept_open hopen rfl id rfl

theorem ends (hqueued : s.stop.row = .queued) (hquiet : s.stopping = false) (hrow : row ≠ .queued) :
    LifeOk (s.write row) where
  queued hsame := absurd hsame hrow
  closing _ := (hs.queued hqueued).1
  ended _ := by
    refine ⟨(hs.queued hqueued).1, ?_, hquiet⟩
    change s.stop.settling.isClosing = false
    rw [(hs.queued hqueued).2]
    rfl

theorem leaveQueuedState (hguard : (decide (s.stop.row ≠ .queued) || !s.stopping) = true)
    (hrow : row ≠ .queued) : LifeOk (s.leaveQueuedState row).1 := by
  rw [Life.leaveQueuedState]
  split_ifs with hqueued
  · have hquiet : s.stopping = false := by simpa [hqueued] using hguard
    exact hs.ends hqueued hquiet hrow
  · exact hs

theorem of_readers {readers : ℕ} (hreaders : s.readers = readers + 1) :
    LifeOk { s with readers := readers } := by
  have hopen : s.stop.row.isTerminal = false := by
    by_contra hterminal
    have hquiet := (hs.ended (by simpa using hterminal)).2.2
    simp [Life.stopping, hreaders] at hquiet
  exact hs.kept_open hopen rfl id rfl

/-- A stop cancels the reservation, or goes on with the run when another was first. -/
theorem cancelReservation {t : Life} (hguard : undisturbed s .cancelReservation = true)
    (hstep : s.cancelReservation = some t) : LifeOk t := by
  rw [Life.cancelReservation] at hstep
  split at hstep
  · cases hstep
  · rename_i readers hreaders
    have hless := hs.of_readers hreaders
    rw [some.injEq, Life.leaveQueuedState] at hstep
    by_cases hqueued : s.stop.row = .queued
    · rw [if_pos hqueued, if_pos rfl] at hstep
      have hquiet : Life.stopping { s with readers := readers } = false := by
        simpa [undisturbed, hqueued, hreaders] using hguard
      exact hstep ▸ hless.ends hqueued hquiet nofun
    · rw [if_neg hqueued, if_neg Bool.false_ne_true] at hstep
      apply hstep ▸ hless.stopInstance
      by_contra hterminal
      have hquiet := (hs.ended (by simpa using hterminal)).2.2
      simp [Life.stopping, hreaders] at hquiet

theorem forceRestart : LifeOk s.forceRestart := by
  rw [Life.forceRestart]
  split_ifs with hopen
  · exact hs
  · exact hs.kept_open (by simpa using hopen) rfl id rfl

theorem runReservedInstance (d : DriveState) : LifeOk (s.runReservedInstance d) := by
  rw [Life.runReservedInstance, Life.leaveQueuedState]
  by_cases hqueued : s.stop.row = .queued
  · rw [if_pos hqueued, if_pos rfl]
    exact .of_open nofun rfl (fun hbusy => absurd (hs.queued hqueued).2 hbusy)
  · rw [if_neg hqueued, if_neg Bool.false_ne_true]
    exact hs

theorem settleQueueJob {t : Life} (hguard : undisturbed s .settleQueueJob = true)
    (hstep : s.settleQueueJob = some t) : LifeOk t := by
  rw [Life.settleQueueJob] at hstep
  split at hstep
  · rename_i state hjob
    obtain ⟨-, hstep⟩ := ite_none_right_eq_some.mp hstep
    rw [some.injEq] at hstep
    apply hstep ▸ hs.leaveQueuedState hguard
    cases state <;> nofun
  · cases hstep

omit hs in
/-- A crash leaves nothing in memory that could write the row. -/
theorem crash (s : Life) : LifeOk s.crash where
  queued _ := ⟨rfl, rfl⟩
  closing _ := rfl
  ended _ := ⟨rfl, rfl, rfl⟩

theorem reconcileRunning : LifeOk s.reconcileRunning := by
  rw [Life.reconcileRunning]
  split
  · exact .of_open nofun rfl hs.closing
  · exact hs

theorem reconcileQueued : LifeOk s.reconcileQueued := by
  rw [Life.reconcileQueued, Life.leaveQueuedState]
  split
  · split
    · exact .of_open nofun rfl hs.closing
    · exact hs
  · exact hs

omit hs in
/-- A parked run found at start is held again under its open row. -/
theorem rehydrate {d : DriveState} {t : Life} (hstep : s.rehydrate d = some t) : LifeOk t := by
  obtain ⟨hrest, hstep⟩ := ite_none_right_eq_some.mp hstep
  rw [Bool.and_eq_true, Bool.and_eq_true, decide_eq_true_eq, decide_eq_true_eq] at hrest
  cases hstep
  have hparked := hrest.1.1
  apply of_open
  · intro hqueued
    simp [show s.stop.row = .queued from hqueued, InstanceState.isParked] at hparked
  · change s.stop.row.isTerminal = false
    cases hrow : s.stop.row <;> simp_all [InstanceState.isParked, InstanceState.isTerminal]
  · exact fun hbusy => absurd hrest.2 hbusy

/-- Every undisturbed event of the daemon keeps the invariant. -/
theorem step {ev : LifeEvent} {t : Life} (hguard : undisturbed s ev = true)
    (hstep : lifeStep e fallbacks s ev = some t) : LifeOk t := by
  cases ev with
  | engine =>
    obtain ⟨hrequest, hstep⟩ := ite_none_left_eq_some.mp hstep
    obtain ⟨u, hengine, rfl⟩ := map_eq_some_iff.mp hstep
    exact hs.engine (by simpa using hrequest) hguard (stopStep_cases hengine)
  | run d => exact some.inj hstep ▸ hs.runReservedInstance d
  | stopInstance => exact some.inj hstep ▸ hs.stopInstance (by simpa [undisturbed] using hguard)
  | cancelReservation => exact hs.cancelReservation hguard hstep
  | checkResolved =>
    rw [lifeStep, some.injEq, Life.checkResolved] at hstep
    subst hstep
    split
    · exact ⟨hs.queued, hs.closing, hs.ended⟩
    · exact hs
  | stopResolved =>
    obtain ⟨-, hstep⟩ := ite_none_left_eq_some.mp hstep
    have hless : LifeOk { s with listed := s.listed - 1 } := ⟨hs.queued, hs.closing, hs.ended⟩
    exact some.inj hstep ▸ hless.stopInstance (by simpa [undisturbed] using hguard)
  | forceRestart => exact some.inj hstep ▸ hs.forceRestart
  | job | started => exact some.inj hstep ▸ ⟨hs.queued, hs.closing, hs.ended⟩
  | settleQueueJob => exact hs.settleQueueJob hguard hstep
  | abandonReservation => exact some.inj hstep ▸ hs.leaveQueuedState hguard nofun
  | crash => exact some.inj hstep ▸ crash s
  | reconcileRunning =>
    obtain ⟨-, hstep⟩ := ite_none_right_eq_some.mp hstep
    exact some.inj hstep ▸ hs.reconcileRunning
  | reconcileQueued =>
    obtain ⟨-, hstep⟩ := ite_none_right_eq_some.mp hstep
    exact some.inj hstep ▸ hs.reconcileQueued
  | rehydrate =>
    obtain ⟨-, hstep⟩ := ite_none_right_eq_some.mp hstep
    exact rehydrate hstep

/-- The engine never writes a row that is terminal already. -/
theorem engine_row (hterminal : s.stop.row.isTerminal = true) (hstep : StopStepped e s.stop ev t) :
    t.row = s.stop.row := by
  obtain ⟨hgone, hopen, hquiet⟩ := hs.ended hterminal
  cases hstep with
  | wrote failed hsettling =>
    rw [hsettling] at hopen
    cases hopen
  | parks reason hreason hsettling hdriven =>
    rw [hgone] at hdriven
    cases hdriven
  | claimed ev d hleaves hhold =>
    rw [hgone] at hhold
    cases hhold
  | marked index hat => cases not_stopping_at hquiet hat
  | _ => rfl

end LifeOk

theorem leaveQueuedState_of_terminal (hterminal : s.stop.row.isTerminal = true)
    (row : InstanceState) : s.leaveQueuedState row = (s, false) := by
  apply if_neg
  intro hqueued
  rw [hqueued] at hterminal
  cases hterminal

theorem stopInstance_row (s : Life) : s.stopInstance.stop.row = s.stop.row := by
  rw [Life.stopInstance]
  split <;> rfl

/-- No event of the daemon writes a row that is terminal already. -/
theorem LifeOk.terminal_row {ev : LifeEvent} {t : Life} (hs : LifeOk s)
    (hterminal : s.stop.row.isTerminal = true) (hstep : lifeStep e fallbacks s ev = some t) :
    t.stop.row = s.stop.row := by
  have hleave := leaveQueuedState_of_terminal hterminal
  cases ev with
  | engine =>
    obtain ⟨-, hstep⟩ := ite_none_left_eq_some.mp hstep
    obtain ⟨u, hengine, rfl⟩ := map_eq_some_iff.mp hstep
    exact hs.engine_row hterminal (stopStep_cases hengine)
  | run =>
    rw [lifeStep, some.injEq, Life.runReservedInstance, hleave] at hstep
    exact hstep ▸ rfl
  | stopInstance => exact some.inj hstep ▸ stopInstance_row s
  | cancelReservation =>
    have hnone : s.readers = 0 := by
      have hquiet := (hs.ended hterminal).2.2
      rw [Life.stopping, Bool.or_eq_false_iff] at hquiet
      simpa using hquiet.1
    rw [lifeStep, Life.cancelReservation, hnone] at hstep
    cases hstep
  | checkResolved =>
    rw [lifeStep, some.injEq, Life.checkResolved] at hstep
    subst hstep
    split <;> rfl
  | stopResolved =>
    obtain ⟨-, hstep⟩ := ite_none_left_eq_some.mp hstep
    exact some.inj hstep ▸ stopInstance_row _
  | forceRestart =>
    rw [lifeStep, some.injEq, Life.forceRestart, if_pos hterminal] at hstep
    exact hstep ▸ rfl
  | job | crash | started => exact some.inj hstep ▸ rfl
  | settleQueueJob =>
    rw [lifeStep, Life.settleQueueJob] at hstep
    split at hstep
    · obtain ⟨-, hstep⟩ := ite_none_right_eq_some.mp hstep
      rw [hleave, some.injEq] at hstep
      exact hstep ▸ rfl
    · cases hstep
  | abandonReservation =>
    rw [lifeStep, hleave, some.injEq] at hstep
    exact hstep ▸ rfl
  | reconcileRunning =>
    obtain ⟨-, hstep⟩ := ite_none_right_eq_some.mp hstep
    have hother : s.stop.row ≠ .running := by
      intro hrunning
      rw [hrunning] at hterminal
      cases hterminal
    rw [Life.reconcileRunning, if_neg hother, some.injEq] at hstep
    exact hstep ▸ rfl
  | reconcileQueued =>
    obtain ⟨-, hstep⟩ := ite_none_right_eq_some.mp hstep
    rw [Life.reconcileQueued, hleave, ite_self, some.injEq] at hstep
    exact hstep ▸ rfl
  | rehydrate =>
    obtain ⟨-, hstep⟩ := ite_none_right_eq_some.mp hstep
    rw [Life.rehydrate] at hstep
    obtain ⟨-, hstep⟩ := ite_none_right_eq_some.mp hstep
    exact some.inj hstep ▸ rfl

theorem Begun.lifeOk (hbegun : Begun s) : LifeOk s := by
  cases hbegun with
  | launched s hlaunched =>
    cases hlaunched with
    | driven => exact .of_open nofun rfl (fun hbusy => absurd rfl hbusy)
    | parked => exact .of_open nofun rfl (fun hbusy => absurd rfl hbusy)
  | reserved =>
    constructor
    · exact fun _ => ⟨rfl, rfl⟩
    · exact fun _ => rfl
    · nofun

end Steps

/-- In every run in which no stop begins on a terminal row and none is under way when
another writer ends the row, a row that is done, failed or canceled stays so. -/
theorem terminal_rows_stay (e : Engine) (fallbacks : String → ℕ) {s m t : Life}
    {es es' : List LifeEvent} (hbegun : Begun s)
    (hguarded : Machine.Guarded (lifeStep e fallbacks) (fun s ev => undisturbed s ev = true) s
      (es ++ es'))
    (hbefore : exec (lifeStep e fallbacks) s es = some m)
    (hterminal : m.stop.row.isTerminal = true)
    (hafter : exec (lifeStep e fallbacks) m es' = some t) : t.stop.row = m.stop.row := by
  have hkept : ∀ s ev s', LifeOk s → undisturbed s ev = true →
      lifeStep e fallbacks s ev = some s' → LifeOk s' := fun s ev s' hs hguard => hs.step hguard
  obtain ⟨hfirst, hrest⟩ := guarded_append hguarded hbefore
  have hm : LifeOk m := exec_invariant hkept hbegun.lifeOk hfirst hbefore
  have hstays : ∀ s ev s', (LifeOk s ∧ s.stop.row = m.stop.row) → undisturbed s ev = true →
      lifeStep e fallbacks s ev = some s' → LifeOk s' ∧ s'.stop.row = m.stop.row := by
    intro s ev s' hs hguard hstep
    refine ⟨hs.1.step hguard hstep, ?_⟩
    rw [← hs.2] at hterminal
    exact (hs.1.terminal_row hterminal hstep).trans hs.2
  exact (exec_invariant hstays ⟨hm, rfl⟩ hrest hafter).2

def noteDrive : DriveState := { run := initDAG "wf-1" noteWorkflow {} [] fun _ => none }

def noteReserved : Life :=
  { stop := { drive := noteDrive, hold := .gone, row := .queued }, job := some .leased }

/-- The run takes its reservation over and ends, up to the write of its final state. -/
def noteRuns : List LifeEvent :=
  .run noteDrive ::
    (noteDriven { success := true } 4 ++ [StopEvent.settle, StopEvent.settle]).map .engine

/-- The daemon is restarted after the end, and the cell is restarted by force. -/
def noteRestarted : List LifeEvent :=
  [.engine .settle, .job .succeeded, .crash, .reconcileRunning, .settleQueueJob, .reconcileQueued,
    .started, .forceRestart]

theorem noteRestarted_stays_done :
    ∃ m t, exec (lifeStep (plainEngine 2) fun _ => 0) noteReserved noteRuns = some m ∧
      exec (lifeStep (plainEngine 2) fun _ => 0) m noteRestarted = some t ∧
      m.stop.row = .done ∧ t.stop.row = m.stop.row := by
  have hguarded : Machine.Guarded (lifeStep (plainEngine 2) fun _ => 0)
      (fun s ev => undisturbed s ev = true) noteReserved (noteRuns ++ noteRestarted) := by decide
  refine ⟨_, _, exec_get (by decide), exec_get (by decide), by decide, ?_⟩
  exact terminal_rows_stay (plainEngine 2) (fun _ => 0) (.reserved noteDrive (some .leased)) hguarded
    (exec_get _) (by decide) (exec_get _)

/-- A resolved-item check lists the running note and asks the source, which answers when
the note has ended. -/
def noteListed : List LifeEvent := noteRuns.take 1 ++ [.checkResolved] ++ noteRuns.drop 1

def noteStopped : List LifeEvent := .stopResolved :: List.replicate 3 (.engine (.stop 0))

theorem noteStopped_after_done : Begun noteReserved ∧
    ∃ m t, exec (lifeStep (plainEngine 2) fun _ => 0) noteReserved noteListed = some m ∧
      exec (lifeStep (plainEngine 2) fun _ => 0) m noteStopped = some t ∧
      m.stop.row = .done ∧ t.stop.row = .blocked .interrupted := by
  exact ⟨.reserved noteDrive (some .leased), _, _, exec_get (by decide), exec_get (by decide), by decide,
    by decide⟩

end Apiary.Daemon
