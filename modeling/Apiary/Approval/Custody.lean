import Apiary.Approval.Once
import Apiary.Daemon.Instance

/-!
# Who answers for an open request

Entering an approval opens a request, and the decision that advances the run closes it.
Nothing else in the program does.  Here the run is also stopped, driven as a child of a
sub-workflow step, dropped because its row is no longer that of a park, deleted with its
task, and brought back after the process died: whenever the engine gives the run up with its
request still open, nobody is left whom an answer would advance.
-/

namespace Apiary.Approval

open Config Workflow Daemon List Option Machine GateState

variable {ev : GateEvent} {r : ApprovalRequest} {g : GateState} {row : InstanceState}

/-- The open requests of an instance. -/
def Store.openOf (s : Store) (instanceID : String) : List ApprovalRequest :=
  (s.requestsOf instanceID).filter fun r => r.status.isOpen

/-! ## The machine -/

/-- A parked run that a new process found in the tables. -/
structure Rehydrated where
  drive : DriveState
  initial : Initial drive
  parked : drive.phase = .parked

/-- One instance with the goroutines around it, its row, and the stops under way.  The engine
knows a run while it is parked, and while it is driven if it has been parked before. -/
structure Custody where
  gate : GateState
  row : InstanceState := .running
  child : Bool := false
  known : Bool := false
  /-- Stops that still have to persist the interruption. -/
  marks : ℕ := 0
  /-- The row was deleted with its task. -/
  deleted : Bool := false

namespace Custody

open List Option

variable (s : Custody)

def openRequests : List ApprovalRequest := s.gate.store.openOf s.gate.inst

/-- The event takes the run out of the parked set. -/
def claims : GateEvent → Bool
  | .act i .next =>
    s.gate.held = .parked && match s.gate.handlers i with
      | .advancing _ _ => true
      | .waking => true
      | _ => false
  | _ => false

def isSettle : GateEvent → Bool
  | .settle => true
  | _ => false

/-- The answer of `stillParkedLocked`: a row that is gone says nothing against the park. -/
def stillParked : Bool := s.deleted || s.row.isParked

/-- A step of the loop or of a goroutine.  `claimParked` takes only a run whose row is still
that of a park. -/
def move (e : Engine) (ev : GateEvent) : Option Custody :=
  if isSettle ev || (s.claims ev && !s.stillParked) then none
  else
    (gateStep e s.gate ev).map fun g =>
      { s with gate := g, row := if s.claims ev then .running else s.row }

/-- Whoever drove the run is done with it. -/
def release (held : Held) : GateState :=
  { s.gate with held := held, handlers := fun i => (s.gate.handlers i).settled }

/-- `settle`, and the end of `runChildInstance`: a child cannot park, and a stopped run
leaves its row to the stop. -/
def settle : Option Custody :=
  if s.gate.held = .driving then
    match s.gate.drive.phase with
    | .parked =>
      if s.child then some { s with gate := s.release .gone, row := .failed }
      else if s.gate.drive.run.stopped then some { s with gate := s.release .gone }
      else
        some { s with
          gate := s.release .parked
          row := .blocked (if s.gate.drive.run.waitStepConfig.2 then .ci else .approval)
          known := true }
    | .ended outcome =>
      some { s with
        gate := s.release .gone
        row := if s.gate.drive.run.stopped then s.row
          else if outcome = .failed then .failed else .done }
    | _ => none
  else none

/-- `forgetParked`: drops a parked run, flags one that was resumed, and clears the guards of
the poll cycles.  A run on its first drive has no guards yet, and the engine does not know
it. -/
def stop : Custody :=
  match s.gate.held with
  | .parked =>
    { s with
      gate := { s.gate with held := .gone, approvalAdvancing := false, waitAdvancing := false }
      marks := s.marks + 1 }
  | .driving =>
    if s.known then
      { s with
        gate :=
          { s.gate with
            drive := { s.gate.drive with run := { s.gate.drive.run with stopped := true } }
            approvalAdvancing := false
            waitAdvancing := false }
        marks := s.marks + 1 }
    else { s with marks := s.marks + 1 }
  | .gone => { s with marks := s.marks + 1 }

/-- A stop persists the interruption. -/
def mark : Option Custody :=
  if s.marks = 0 then none
  else some { s with row := .blocked .interrupted, marks := s.marks - 1 }

/-- `stillParkedLocked` finds the row of a parked run changed and drops the run. -/
def drop : Option Custody :=
  if s.gate.held = .parked && !s.stillParked then
    some { s with gate := { s.gate with held := .gone } }
  else none

/-- `DeleteTask`: the rows of its instances go.  The engine is not told, and the requests
stay. -/
def delete : Custody := { s with deleted := true }

/-- The process dies and the next one starts: it brings parked rows back as far as it can and
interrupts those that were running. -/
def restart (found : Option Rehydrated) : Custody :=
  let died : GateState :=
    { s.gate with
      held := .gone
      approvalAdvancing := false
      waitAdvancing := false
      handlers := fun _ => .done }
  match found with
  | some park =>
    if s.row.isParked && !s.deleted then
      { s with gate := { died with drive := park.drive, held := .parked }, known := true, marks := 0 }
    else { s with gate := died, marks := 0 }
  | none =>
    { s with
      gate := died
      row := if s.row = .running then .blocked .interrupted else s.row
      marks := 0 }

end Custody

inductive CustodyEvent where
  | gate (ev : GateEvent)
  | settle
  | stop
  | mark
  | drop
  | delete
  | restart (found : Option Rehydrated)

def custodyStep (e : Engine) (s : Custody) : CustodyEvent → Option Custody
  | .gate ev => s.move e ev
  | .settle => s.settle
  | .stop => some s.stop
  | .mark => s.mark
  | .drop => s.drop
  | .delete => some s.delete
  | .restart found => some (s.restart found)

/-- Every open request of the instance is that of the step the run is parked at, in the
engine and in its row.  Between opening the request and `settle` the loop still has the run. -/
def Custody.Kept (s : Custody) : Prop :=
  ∀ r ∈ s.openRequests, s.gate.drive.phase = .parked ∧ s.gate.drive.run.waitingStep = r.stepID ∧
      (s.gate.held = .driving ∨
        s.gate.held = .parked ∧ s.row.isParked = true ∧ s.deleted = false)

/-- The type of the step that a run waits at. -/
def waitingType (d : DriveState) : StepType := (byID d.run.wf d.run.waitingStep).type

/-- The new process has the run where the old one had it. -/
def SamePark (d d' : DriveState) : Prop :=
  d'.run.instID = d.run.instID ∧ (d'.run.wf.steps.map StepConfig.id).Nodup ∧
    d'.run.waitingStep = d.run.waitingStep ∧ waitingType d' = waitingType d ∧
    d'.run.waitingChild = d.run.waitingChild

/-- The condition on a step: claims are made alone, the engine gives the run up only when no
request of it is open, and a task is deleted only after its runs were given up. -/
def Orderly (s : Custody) : CustodyEvent → Prop
  | .gate ev => actsAlone s.gate ev = true
  | .settle => s.child = true ∨ s.gate.drive.run.stopped = true → s.openRequests = []
  | .stop => s.gate.held = .parked → s.openRequests = []
  | .mark => s.openRequests = []
  | .drop => s.openRequests = []
  | .delete => s.gate.held = .gone ∧ s.openRequests = []
  | .restart none => s.openRequests = []
  | .restart (some park) =>
    s.gate.held = .parked ∧ s.row.isParked = true ∧ SamePark s.gate.drive park.drive

instance (s : Custody) : (ev : CustodyEvent) → Decidable (Orderly s ev)
  | .gate ev => inferInstanceAs (Decidable (actsAlone s.gate ev = true))
  | .settle => inferInstanceAs (Decidable
      (s.child = true ∨ s.gate.drive.run.stopped = true → s.openRequests = []))
  | .stop => inferInstanceAs (Decidable (s.gate.held = .parked → s.openRequests = []))
  | .mark => inferInstanceAs (Decidable (s.openRequests = []))
  | .drop => inferInstanceAs (Decidable (s.openRequests = []))
  | .delete => inferInstanceAs (Decidable (s.gate.held = .gone ∧ s.openRequests = []))
  | .restart none => inferInstanceAs (Decidable (s.openRequests = []))
  | .restart (some _) => inferInstanceAs (Decidable
      (s.gate.held = .parked ∧ s.row.isParked = true ∧ _ ∧ _ ∧ _ ∧ _ ∧ _))

/-! ## Open requests -/

section Open

variable {s t : Store} {inst : String} {r : ApprovalRequest}

theorem mem_openOf : r ∈ s.openOf inst ↔ r ∈ s.requestsOf inst ∧ r.status.isOpen = true := by
  rw [Store.openOf, mem_filter]

/-- A request that is open afterwards was open before: requests never open again. -/
theorem RequestsEvolve.openOf (hevolve : RequestsEvolve s t) (hr : r ∈ t.openOf inst) :
    ∃ old ∈ s.openOf inst, old.stepID = r.stepID := by
  rw [mem_openOf, mem_requestsOf] at hr
  obtain ⟨⟨hmem, hinst⟩, hopen⟩ := hr
  obtain ⟨old, hold, hevolves⟩ := hevolve.of_mem hmem
  refine ⟨old, ?_, hevolves.step.symm⟩
  rw [mem_openOf, mem_requestsOf]
  exact ⟨⟨hold, hevolves.instance_eq.symm.trans hinst⟩, hevolves.isOpen hopen⟩

/-- A write that concerns another run leaves the open requests of this one. -/
theorem openOf_apply (hids : (s.requests.map ApprovalRequest.id).Nodup) {op : Store.Op}
    (hother : s.concerns op ≠ some inst) : (s.apply op).openOf inst = s.openOf inst := by
  rw [Store.openOf, apply_requestsOf hids hother, Store.openOf]

/-- Where none was open, the only open request is the one a visit opens. -/
theorem openOf_created {req : ApprovalRequest} {out : Store × ApprovalRequest}
    (hnone : s.openOf req.workflowInstanceID = [])
    (hcreate : s.createApprovalRequest req = .ok out)
    (hr : r ∈ out.1.openOf req.workflowInstanceID) : r.stepID = req.stepID := by
  have hold : r ∉ s.openOf req.workflowInstanceID := by simp [hnone]
  cases createApprovalRequest_cases hcreate with
  | reused | kept => exact absurd hr hold
  | minted =>
    rw [mem_openOf, mem_requestsOf] at hr hold
    rcases mem_append.mp hr.1.1 with hmem | hnew
    · exact absurd ⟨⟨hmem, hr.1.2⟩, hr.2⟩ hold
    · rw [mem_singleton.mp hnew]
      rfl

end Open

/-! ## Steps of the loop and of the goroutines -/

/-- The step leaves the run where it is, and requests are answered at most. -/
structure Spares (s t : GateState) : Prop where
  drive : t.drive = s.drive
  held : t.held = s.held
  openOf : ∀ r ∈ t.store.openOf s.inst, ∃ old ∈ s.store.openOf s.inst, old.stepID = r.stepID
  ids : (s.store.requests.map ApprovalRequest.id).Nodup →
    (t.store.requests.map ApprovalRequest.id).Nodup

section Gate

variable {e : Engine} {s t : GateState}

theorem spares_of_evolve (hdrive : t.drive = s.drive) (hheld : t.held = s.held)
    (hevolve : RequestsEvolve s.store t.store) : Spares s t where
  drive := hdrive
  held := hheld
  openOf := fun _ hr => hevolve.openOf hr
  ids := fun hids => hevolve.ids.symm ▸ hids

/-- A goroutine either claims the run or leaves it where it is. -/
theorem Acted.spares {i : ℕ} {a : Act} (hacted : Acted e s i a t) :
    Spares s t ∨ s.held = .parked ∧ t.held = .driving ∧ t.parkRequest = none := by
  have hsame := RequestsEvolve.refl s.store
  cases hacted with
  | moved | waitMoved => exact .inl (spares_of_evolve rfl rfl hsame)
  | responded _ _ _ _ hanswered | resolved _ _ _ _ hanswered =>
    exact .inl (spares_of_evolve rfl rfl hanswered.evolves)
  | escalated request =>
    exact .inl (spares_of_evolve rfl rfl (escalateApproval_evolves s.store request))
  | expired request =>
    exact .inl (spares_of_evolve rfl rfl (markApprovalTimedOut_evolves s.store request))
  | advanced request response d hnext hhandler hheld | woken d hhandler hheld =>
    exact .inr ⟨hheld, rfl, rfl⟩

theorem launch_spares (s : GateState) (h : Handler) : Spares s (s.launch h) :=
  spares_of_evolve rfl rfl (RequestsEvolve.refl s.store)

/-- Besides the loop, the end of a run and a claim, events spare the open request. -/
theorem gateStep_spares (hids : (s.store.requests.map ApprovalRequest.id).Nodup)
    (hstep : gateStep e s ev = some t) :
    (∃ loop, ev = .loop loop) ∨ ev = .settle ∨ Spares s t ∨
      s.held = .parked ∧ t.held = .driving ∧ t.parkRequest = none := by
  cases ev with
  | loop loop => exact .inl ⟨loop, rfl⟩
  | settle => exact .inr (.inl rfl)
  | respond =>
    rw [gateStep, respond] at hstep
    split at hstep
    · cases hstep
    · obtain ⟨-, hstep⟩ := ite_none_right_eq_some.mp hstep
      rw [some.injEq] at hstep
      exact .inr (.inr (.inl (hstep ▸ launch_spares s _)))
  | poll | pollWait =>
    obtain ⟨-, hstep⟩ := ite_none_right_eq_some.mp hstep
    rw [some.injEq] at hstep
    exact .inr (.inr (.inl (hstep ▸ launch_spares s _)))
  | act => exact .inr (.inr (act_cases hstep).spares)
  | elsewhere op =>
    obtain ⟨hother, ⟨⟩⟩ := ite_none_right_eq_some.mp hstep
    refine .inr (.inr (.inl ⟨rfl, rfl, ?_, (apply_grows s.store op).ids⟩))
    intro r hr
    exact ⟨r, openOf_apply hids hother ▸ hr, rfl⟩

/-- A request that is open after a step of the loop is the one the run parks at. -/
theorem loop_opens {ev : Event} (hwf : WellFormed s.drive)
    (hids : (s.store.requests.map ApprovalRequest.id).Nodup)
    (hnone : s.drive.phase ≠ .parked → s.store.openOf s.inst = [])
    (hstep : s.loop e ev = some t) :
    WellFormed t.drive ∧ t.held = .driving ∧ t.inst = s.inst ∧
      (t.store.requests.map ApprovalRequest.id).Nodup ∧
      ∀ r ∈ t.store.openOf t.inst, t.drive.phase = .parked ∧
        t.drive.run.waitingStep = r.stepID := by
  cases loop_cases hwf hstep with
  | move ev d clock hheld hclock hfrom hwellFormed hkept =>
    have hinst : d.run.instID = s.drive.run.instID := hkept.instID
    refine ⟨hwellFormed, hheld, hinst, hids, ?_⟩
    intro r hr
    change r ∈ s.store.openOf d.run.instID at hr
    rw [hinst] at hr
    have hempty := hnone hfrom
    rw [inst] at hempty
    rw [hempty] at hr
    exact absurd hr not_mem_nil
  | park now wr hheld hclock hphase hnoflight =>
    obtain ⟨_, _, _, hpark⟩ := enterPark_eq s.drive.run now wr
    have hempty : s.store.openOf s.drive.run.instID = [] := hnone (by simp [hphase])
    have hwellFormed := hwf.parked now hphase hnoflight
    rw [DriveState.park, hpark] at hwellFormed ⊢
    rw [opened]
    split
    · dsimp only
      split
      · rename_i hcreate
        refine ⟨hwellFormed, hheld, rfl, ?_, ?_⟩
        · cases createApprovalRequest_cases hcreate with
          | reused | kept => exact hids
          | minted hfresh => exact Grows.ids (.added _ rfl hfresh) hids
        · intro r hr
          exact ⟨rfl, (openOf_created hempty hcreate hr).symm⟩
      · exact ⟨hwellFormed, hheld, rfl, hids, fun r hr => absurd (hempty ▸ hr) not_mem_nil⟩
    · exact ⟨hwellFormed, hheld, rfl, hids, fun r hr => absurd (hempty ▸ hr) not_mem_nil⟩

end Gate

/-! ## The invariant -/

/-- The engine has the run, and its goroutines are in step with the park. -/
structure Live (s : Custody) : Prop where
  synced : Synced s.gate
  held : s.gate.held ≠ .gone
  steps : ∀ r ∈ s.openRequests, r.stepID = s.gate.drive.run.waitingStep
  row : s.gate.held = .parked → s.openRequests ≠ [] → s.row.isParked = true
  present : s.deleted = false

/-- A run that was stopped while it was being driven; it will not be parked again. -/
structure Winding (s : Custody) : Prop where
  wellFormed : WellFormed s.gate.drive
  ids : (s.gate.store.requests.map ApprovalRequest.id).Nodup
  held : s.gate.held = .driving
  stopped : s.gate.drive.run.stopped = true
  steps : ∀ r ∈ s.openRequests,
    s.gate.drive.phase = .parked ∧ s.gate.drive.run.waitingStep = r.stepID

/-- The engine gave the run up, and no request of it is open. -/
structure Left (s : Custody) : Prop where
  ids : (s.gate.store.requests.map ApprovalRequest.id).Nodup
  held : s.gate.held = .gone
  none : s.openRequests = []

inductive Custodial (s : Custody) : Prop where
  | live (hlive : Live s)
  | winding (hwinding : Winding s)
  | left (hleft : Left s)

section Invariant

variable {e : Engine} {s t : Custody}

/-- An open request is that of the current park. -/
theorem Live.parked (hlive : Live s) (hr : r ∈ s.openRequests) : s.gate.drive.phase = .parked := by
  obtain ⟨hmem, hopen⟩ := mem_openOf.mp hr
  have hpark := hlive.synced.tables.gates r hmem hopen
  exact (hlive.synced.park.parked (by simp [hpark])).1

theorem Live.none_of_phase (hlive : Live s) (hphase : s.gate.drive.phase ≠ .parked) :
    s.openRequests = [] := by
  apply eq_nil_iff_forall_not_mem.mpr
  intro r hr
  exact hphase (hlive.parked hr)

variable (hs : Custodial s)

include hs

/-- The invariant gives the property at any moment. -/
theorem Custodial.kept : s.Kept := by
  intro r hr
  cases hs with
  | live hlive =>
    refine ⟨hlive.parked hr, (hlive.steps r hr).symm, ?_⟩
    cases hheld : s.gate.held with
    | driving => exact .inl rfl
    | parked => exact .inr ⟨rfl, hlive.row hheld (ne_nil_of_mem hr), hlive.present⟩
    | gone => exact absurd hheld hlive.held
  | winding hwinding =>
    obtain ⟨hphase, hstep⟩ := hwinding.steps r hr
    exact ⟨hphase, hstep, .inl hwinding.held⟩
  | left hleft =>
    rw [hleft.none] at hr
    exact absurd hr not_mem_nil

omit hs in
theorem claims_driving (hclaims : s.claims ev = true) (hstep : gateStep e s.gate ev = some g) :
    g.held = .driving := by
  cases ev with
  | act i a =>
    cases a with
    | next =>
      rw [Custody.claims, Bool.and_eq_true, decide_eq_true_eq] at hclaims
      obtain ⟨hheld, hhandler⟩ := hclaims
      split at hhandler
      · rename_i request response heq
        have hadvance : s.gate.advance e i request response = some g := by
          simpa only [gateStep, act, heq] using hstep
        rw [advance, if_pos hheld] at hadvance
        obtain ⟨d, -, rfl⟩ := map_eq_some_iff.mp hadvance
        rfl
      · rename_i heq
        have hwake : s.gate.wake e i = some g := by
          simpa only [gateStep, act, heq] using hstep
        rw [wake, if_pos hheld] at hwake
        obtain ⟨d, -, rfl⟩ := map_eq_some_iff.mp hwake
        rfl
      · cases hhandler
    | _ => cases hclaims
  | _ => cases hclaims

omit hs in
theorem openRequests_spares (hspares : Spares s.gate g)
    (hr : r ∈ Custody.openRequests { s with gate := g, row := row }) :
    ∃ old ∈ s.openRequests, old.stepID = r.stepID := by
  have hinst : g.inst = s.gate.inst := by rw [inst, hspares.drive, inst]
  change r ∈ g.store.openOf g.inst at hr
  rw [hinst] at hr
  exact hspares.openOf r hr

omit hs in
theorem openRequests_spares_nil (hspares : Spares s.gate g) (hnone : s.openRequests = []) :
    Custody.openRequests { s with gate := g, row := row } = [] := by
  apply eq_nil_iff_forall_not_mem.mpr
  intro r hr
  obtain ⟨old, hold, -⟩ := openRequests_spares hspares hr
  rw [hnone] at hold
  exact absurd hold not_mem_nil

omit hs in
/-- A live run keeps its request as long as one party at a time acts on it. -/
theorem Live.moved (hlive : Live s) (hsettle : ev ≠ .settle) (halone : actsAlone s.gate ev = true)
    (hstep : gateStep e s.gate ev = some g) :
    Live { s with gate := g, row := if s.claims ev then .running else s.row } := by
  have hsynced := hlive.synced.step halone hstep
  rcases gateStep_spares hlive.synced.tables.ids hstep with
    ⟨loop, rfl⟩ | heq | hspares | ⟨hparked, hdriving, hpark⟩
  · obtain ⟨-, hheld, -, -, hopens⟩ := loop_opens hlive.synced.park.wellFormed
      hlive.synced.tables.ids hlive.none_of_phase hstep
    refine ⟨hsynced, by simp [hheld], fun r hr => (hopens r hr).2.symm, ?_, hlive.present⟩
    intro hparked
    nomatch hheld.symm.trans hparked
  · exact absurd heq hsettle
  · refine ⟨hsynced, hspares.held.symm ▸ hlive.held, ?_, ?_, hlive.present⟩
    · intro r hr
      obtain ⟨old, hold, hsame⟩ := openRequests_spares hspares hr
      rw [← hsame, hlive.steps old hold, ← hspares.drive]
    · intro hparked hopen
      cases hclaims : s.claims ev with
      | true => nomatch (claims_driving hclaims hstep).symm.trans hparked
      | false =>
        apply hlive.row (hspares.held.symm.trans hparked)
        intro hnone
        exact hopen (openRequests_spares_nil hspares hnone)
  · -- a claim closes the park, so no request is open after it
    have hnone : Custody.openRequests
        { s with gate := g, row := if s.claims ev then .running else s.row } = [] := by
      apply eq_nil_iff_forall_not_mem.mpr
      intro r hr
      obtain ⟨hmem, hopen⟩ := mem_openOf.mp hr
      have hgate := hsynced.tables.gates r hmem hopen
      simp [hpark] at hgate
    refine ⟨hsynced, by simp [hdriving], ?_, fun _ hopen => absurd hnone hopen, hlive.present⟩
    intro r hr
    rw [hnone] at hr
    exact absurd hr not_mem_nil

omit hs in
theorem opened_drive (g : GateState) (now : ℕ) (step : StepConfig) :
    (g.opened now step).drive = g.drive := by
  rw [opened]
  split
  · split <;> rfl
  · rfl

omit hs in
theorem loop_drive {ev : Event} {g' : GateState} (hstep : g.loop e ev = some g') :
    ev ≠ .stop ∧ Workflow.step e g.drive ev = some g'.drive := by
  cases ev with
  | sched =>
    obtain ⟨-, hstep⟩ := ite_none_right_eq_some.mp hstep
    obtain ⟨d, hd, rfl⟩ := map_eq_some_iff.mp hstep
    refine ⟨by simp, ?_⟩
    dsimp only
    split
    · rwa [opened_drive]
    · exact hd
  | worker =>
    obtain ⟨-, hstep⟩ := ite_none_right_eq_some.mp hstep
    obtain ⟨d, hd, rfl⟩ := map_eq_some_iff.mp hstep
    exact ⟨by simp, hd⟩
  | cancel =>
    obtain ⟨hguard, ⟨⟩⟩ := ite_none_right_eq_some.mp hstep
    exact ⟨by simp, if_pos (Bool.and_eq_true_iff.mp hguard).2⟩
  | _ => cases hstep

omit hs in
/-- A run that was stopped while it was driven stays stopped. -/
theorem Winding.moved (hwinding : Winding s) (hsettle : ev ≠ .settle)
    (hstep : gateStep e s.gate ev = some g) (row : InstanceState) :
    Winding { s with gate := g, row := row } := by
  rcases gateStep_spares hwinding.ids hstep with
    ⟨loop, rfl⟩ | heq | hspares | ⟨hparked, -, -⟩
  · have hnone : s.gate.drive.phase ≠ .parked → s.gate.store.openOf s.gate.inst = [] := by
      intro hphase
      apply eq_nil_iff_forall_not_mem.mpr
      intro r hr
      exact hphase (hwinding.steps r hr).1
    obtain ⟨hwf, hheld, -, hids, hopens⟩ := loop_opens hwinding.wellFormed hwinding.ids hnone hstep
    obtain ⟨hfree, hdrive⟩ := loop_drive hstep
    exact ⟨hwf, hids, hheld, (step_stopped hfree hdrive).trans hwinding.stopped, hopens⟩
  · exact absurd heq hsettle
  · refine ⟨hspares.drive.symm ▸ hwinding.wellFormed, hspares.ids hwinding.ids,
      hspares.held.trans hwinding.held, hspares.drive.symm ▸ hwinding.stopped, ?_⟩
    intro r hr
    obtain ⟨old, hold, hsame⟩ := openRequests_spares hspares hr
    rw [← hsame]
    change g.drive.phase = _ ∧ g.drive.run.waitingStep = _
    rw [hspares.drive]
    exact hwinding.steps old hold
  · nomatch hparked.symm.trans hwinding.held

omit hs in
theorem Left.moved (hleft : Left s) (hsettle : ev ≠ .settle)
    (hstep : gateStep e s.gate ev = some g) (row : InstanceState) :
    Left { s with gate := g, row := row } := by
  rcases gateStep_spares hleft.ids hstep with ⟨loop, rfl⟩ | heq | hspares | ⟨hparked, -, -⟩
  · have hidle : s.gate.held ≠ .driving := by simp [hleft.held]
    cases loop <;> simp [gateStep, loop, hidle] at hstep
  · exact absurd heq hsettle
  · exact ⟨hspares.ids hleft.ids, hspares.held.trans hleft.held,
      openRequests_spares_nil hspares hleft.none⟩
  · cases hparked.symm.trans hleft.held

theorem Custodial.ids : (s.gate.store.requests.map ApprovalRequest.id).Nodup := by
  cases hs with
  | live hlive => exact hlive.synced.tables.ids
  | winding hwinding => exact hwinding.ids
  | left hleft => exact hleft.ids

theorem Custodial.moved (halone : actsAlone s.gate ev = true) (hstep : s.move e ev = some t) :
    Custodial t := by
  obtain ⟨hfree, hstep⟩ := ite_none_left_eq_some.mp hstep
  have hsettle : ev ≠ .settle := by
    rintro rfl
    exact hfree rfl
  obtain ⟨g, hg, rfl⟩ := map_eq_some_iff.mp hstep
  cases hs with
  | live hlive => exact .live (hlive.moved hsettle halone hg)
  | winding hwinding => exact .winding (hwinding.moved hsettle hg _)
  | left hleft => exact .left (hleft.moved hsettle hg _)

/-- A run given up with no open request leaves nothing behind. -/
theorem Custodial.released (hnone : s.openRequests = []) (hheld : t.gate.held = .gone)
    (hstore : t.gate.store = s.gate.store) (hinst : t.gate.inst = s.gate.inst) : Custodial t := by
  refine .left ⟨?_, hheld, ?_⟩
  · rw [hstore]
    exact hs.ids
  · rw [Custody.openRequests, hstore, hinst]
    exact hnone

theorem Custodial.none_of_phase (hphase : s.gate.drive.phase ≠ .parked) : s.openRequests = [] := by
  apply eq_nil_iff_forall_not_mem.mpr
  intro r hr
  exact hphase (hs.kept r hr).1

/-- The end of a run: parked, it is held; otherwise it leaves no request. -/
theorem Custodial.settled
    (horderly : s.child = true ∨ s.gate.drive.run.stopped = true → s.openRequests = [])
    (hstep : s.settle = some t) : Custodial t := by
  obtain ⟨hheld, hstep⟩ := ite_none_right_eq_some.mp hstep
  split at hstep
  · rename_i hphase
    split at hstep
    · rename_i hchild
      cases hstep
      exact hs.released (horderly (.inl hchild)) rfl rfl rfl
    · split at hstep
      · rename_i hstopped
        cases hstep
        exact hs.released (horderly (.inr hstopped)) rfl rfl rfl
      · rename_i hstopped
        cases hstep
        cases hs with
        | live hlive =>
          have hsynced := hlive.synced.settle hheld fun _ : Held.parked = .parked => hphase
          refine .live ⟨hsynced, by simp [Custody.release], hlive.steps, ?_, hlive.present⟩
          intro _ _
          dsimp only
          split <;> rfl
        | winding hwinding => exact absurd hwinding.stopped hstopped
        | left hleft => nomatch hheld.symm.trans hleft.held
  · rename_i hphase
    cases hstep
    exact hs.released (hs.none_of_phase (by simp [hphase])) rfl rfl rfl
  · cases hstep

theorem Custodial.stopped (horderly : s.gate.held = .parked → s.openRequests = []) :
    Custodial s.stop := by
  rw [Custody.stop]
  split
  · rename_i hheld
    exact hs.released (horderly hheld) rfl rfl rfl
  · rename_i hheld
    split
    · cases hs with
      | live hlive =>
        refine .winding ⟨hlive.synced.park.wellFormed.flagged, hlive.synced.tables.ids,
          hheld, rfl, ?_⟩
        intro r hr
        exact ⟨hlive.parked hr, (hlive.steps r hr).symm⟩
      | winding hwinding =>
        exact .winding ⟨hwinding.wellFormed.flagged, hwinding.ids, hheld, rfl, hwinding.steps⟩
      | left hleft => nomatch hheld.symm.trans hleft.held
    · cases hs with
      | live hlive => exact .live ⟨hlive.synced, hlive.held, hlive.steps, hlive.row, hlive.present⟩
      | winding hwinding =>
        exact .winding ⟨hwinding.wellFormed, hwinding.ids, hheld, hwinding.stopped, hwinding.steps⟩
      | left hleft => nomatch hheld.symm.trans hleft.held
  · rename_i hheld
    cases hs with
    | live hlive => exact absurd hheld hlive.held
    | winding hwinding => nomatch hheld.symm.trans hwinding.held
    | left hleft => exact .left ⟨hleft.ids, hheld, hleft.none⟩

theorem Custodial.marked (hnone : s.openRequests = []) (hstep : s.mark = some t) : Custodial t := by
  obtain ⟨-, ⟨⟩⟩ := ite_none_left_eq_some.mp hstep
  cases hs with
  | live hlive =>
    exact .live ⟨hlive.synced, hlive.held, hlive.steps, fun _ hopen => absurd hnone hopen,
      hlive.present⟩
  | winding hwinding =>
    exact .winding ⟨hwinding.wellFormed, hwinding.ids, hwinding.held, hwinding.stopped,
      hwinding.steps⟩
  | left hleft => exact .left ⟨hleft.ids, hleft.held, hleft.none⟩

theorem Custodial.dropped (hnone : s.openRequests = []) (hstep : s.drop = some t) :
    Custodial t := by
  obtain ⟨-, ⟨⟩⟩ := ite_none_right_eq_some.mp hstep
  exact hs.released hnone rfl rfl rfl

theorem Custodial.deleted (hgone : s.gate.held = .gone) (hnone : s.openRequests = []) :
    Custodial s.delete := hs.released hnone hgone rfl rfl

omit hs in
theorem Synced.rehydrated (hg : Synced g) (hheld : g.held = .parked) {park : Rehydrated}
    (hsame : SamePark g.drive park.drive) :
    Synced { g with
      drive := park.drive
      held := .parked
      approvalAdvancing := false
      waitAdvancing := false
      handlers := fun _ => .done } := by
  have hparked := hg.park.held hheld
  obtain ⟨hinstID, hsteps, -, htype, hchild⟩ := hsame
  have hinst : inst { g with
      drive := park.drive
      held := .parked
      approvalAdvancing := false
      waitAdvancing := false
      handlers := fun _ => .done } = g.inst := hinstID
  refine ⟨⟨park.initial.started.wellFormed, hsteps, ?_, ?_, ?_, ?_⟩, ?_, ?_,
    ⟨by simp [Handler.waits], fun _ _ => rfl⟩, hg.applied⟩
  · exact fun hpark => ⟨park.parked, htype.trans (hg.park.parked hpark).2⟩
  · exact fun hpark _ happroval => hg.park.unparked hpark hparked (htype.symm.trans happroval)
  · exact fun hne => ⟨park.parked, (hg.park.child (hchild ▸ hne)).2⟩
  · exact fun _ => park.parked
  · rw [hinst]
    exact hg.tables
  · exact fun _ => trivial

/-- A restart brings a parked run back at its step, or finds no request open. -/
theorem Custodial.restarted {found : Option Rehydrated} (horderly : Orderly s (.restart found)) :
    Custodial (s.restart found) := by
  cases found with
  | none => exact hs.released horderly rfl rfl rfl
  | some park =>
    obtain ⟨hheld, hrow, hsame⟩ := horderly
    rw [Custody.restart]
    dsimp only
    cases hs with
    | live hlive =>
      rw [if_pos (by rw [hrow, hlive.present]; rfl)]
      refine .live ⟨hlive.synced.rehydrated hheld hsame, by simp, ?_, fun _ _ => hrow,
        hlive.present⟩
      intro r hr
      change r ∈ s.gate.store.openOf park.drive.run.instID at hr
      rw [hsame.1] at hr
      change r.stepID = park.drive.run.waitingStep
      rw [hsame.2.2.1]
      exact hlive.steps r hr
    | winding hwinding => nomatch hheld.symm.trans hwinding.held
    | left hleft => nomatch hheld.symm.trans hleft.held

/-- Every orderly event keeps the invariant. -/
theorem Custodial.step {ev : CustodyEvent} (horderly : Orderly s ev)
    (hstep : custodyStep e s ev = some t) : Custodial t := by
  cases ev with
  | gate => exact hs.moved horderly hstep
  | settle => exact hs.settled horderly hstep
  | stop => exact some.inj hstep ▸ hs.stopped horderly
  | mark => exact hs.marked horderly hstep
  | drop => exact hs.dropped horderly hstep
  | delete => exact some.inj hstep ▸ hs.deleted horderly.1 horderly.2
  | restart => exact some.inj hstep ▸ hs.restarted horderly

end Invariant

/-! ## Runs -/

/-- In every run of a new instance, top-level or child, in which claims are made alone, the
engine gives the run up only when no request of it is open and the task is deleted only after
that, every open request is that of the step the instance is parked at. -/
theorem open_request_parked (e : Engine) {d : DriveState} {store : Store} {clock : ℕ}
    {child : Bool} {es : List CustodyEvent} {t : Custody} (hinit : Initial d)
    (htop : d.phase = .top) (hsteps : (d.run.wf.steps.map StepConfig.id).Nodup)
    (hids : (store.requests.map ApprovalRequest.id).Nodup)
    (hnew : store.requestsOf d.run.instID = [])
    (horderly : Machine.Guarded (custodyStep e) Orderly
      { gate := { drive := d, store := store, clock := clock }, child := child } es)
    (hrun : exec (custodyStep e)
      { gate := { drive := d, store := store, clock := clock }, child := child } es = some t) :
    t.Kept := by
  have hkept : ∀ s ev s', Custodial s → Orderly s ev → custodyStep e s ev = some s' →
      Custodial s' := fun s ev s' hs hguard hstep => hs.step hguard hstep
  have hnone : Store.openOf store d.run.instID = [] := by rw [Store.openOf, hnew]; rfl
  have hlive : Custodial
      { gate := { drive := d, store := store, clock := clock }, child := child } := by
    refine .live ⟨start_synced clock hinit htop hsteps hids hnew, by simp, ?_, by simp, rfl⟩
    intro r hr
    change r ∈ store.openOf d.run.instID at hr
    rw [hnone] at hr
    exact absurd hr not_mem_nil
  exact (exec_invariant hkept hlive horderly hrun).kept

/-! ## An approval and a stop -/

/-- The loop goes on to its next approval and opens its request. -/
def toOpenRequest : List CustodyEvent := List.replicate 6 (.gate (.loop (.sched 0)))

/-- The review is approved, and the run parks at the next approval. -/
def reviewApproved : List CustodyEvent :=
  toOpenRequest ++ [.settle] ++
    (respondFully "wf-1:review" (approvalBy "alice" "k-1") 0).map .gate ++ toOpenRequest ++ [.settle]

def twoGatesCustody (child : Bool) : Custody := { gate := { drive := twoGatesStart }, child := child }

theorem twoGates_reviewApproved_kept :
    ∃ t, exec (custodyStep (plainEngine 1)) (twoGatesCustody false) reviewApproved = some t ∧
      t.openRequests.map ApprovalRequest.stepID = ["ship"] ∧ t.Kept := by
  have hids : (({} : Store).requests.map ApprovalRequest.id).Nodup := nodup_nil
  refine ⟨_, exec_get (by decide +kernel), by decide +kernel, ?_⟩
  exact open_request_parked (plainEngine 1) twoGatesStart_initial rfl (by decide) hids rfl
    (by decide +kernel) (exec_get _)

/-- The run is stopped at its first approval, by the operator or a restart of its cell, or it
reaches the approval as a child, or its task is deleted. -/
def stoppedAtReview : List CustodyEvent := toOpenRequest ++ [.settle, .stop, .mark]

theorem twoGates_request_left_open :
    (∃ t, exec (custodyStep (plainEngine 1)) (twoGatesCustody false) stoppedAtReview = some t ∧
      t.row = .blocked .interrupted ∧ t.openRequests.map ApprovalRequest.id = ["wf-1:review"] ∧
      ¬t.Kept) ∧
    (∃ t, exec (custodyStep (plainEngine 1)) (twoGatesCustody true)
        (toOpenRequest ++ [.settle]) = some t ∧
      t.row = .failed ∧ t.openRequests.map ApprovalRequest.id = ["wf-1:review"] ∧ ¬t.Kept) ∧
    ∃ t, exec (custodyStep (plainEngine 1)) (twoGatesCustody false)
        (toOpenRequest ++ [.settle, .delete]) = some t ∧
      t.deleted = true ∧ t.openRequests.map ApprovalRequest.id = ["wf-1:review"] ∧ ¬t.Kept := by
  have hlost : ∀ t : Custody, t.gate.held = .gone ∨ t.deleted = true ∧ t.gate.held = .parked →
      t.openRequests.map ApprovalRequest.id = ["wf-1:review"] → ¬t.Kept := by
    intro t hlost hopen hkept
    obtain ⟨r, hr, -⟩ := List.mem_map.mp (hopen ▸ mem_cons_self)
    rcases (hkept r hr).2.2 with hdriving | ⟨hparked, -, hpresent⟩
    · simp [hdriving] at hlost
    · simp [hparked, hpresent] at hlost
  refine ⟨⟨_, exec_get (by decide +kernel), by decide +kernel, by decide +kernel, ?_⟩,
    ⟨_, exec_get (by decide +kernel), by decide +kernel, by decide +kernel, ?_⟩,
    ⟨_, exec_get (by decide +kernel), by decide +kernel, by decide +kernel, ?_⟩⟩
  · exact hlost _ (.inl (by decide +kernel)) (by decide +kernel)
  · exact hlost _ (.inl (by decide +kernel)) (by decide +kernel)
  · exact hlost _ (.inr (by decide +kernel)) (by decide +kernel)

end Apiary.Approval
