import Apiary.Core.Table
import Apiary.Daemon.Interrupt
import Mathlib.Logic.Function.Basic

/-!
# Items that are resolved

`checkResolved` lists the instances whose state says that they are live, asks the source
which of their items are resolved, and stops the instances of those.  The states it lists
are `running` and the two names that parks had in older databases.  A park of today is
`blocked`, and the reason beside it is not looked at.

Stopping an instance reaches beyond its row: the open jobs of its task and workflow are
canceled, and when no step of the instance is in flight, the run that was last started
for the same item id is canceled, whatever source the item is of.  The run itself is stopped
if the engine holds it and nothing of it is under way.
-/

namespace Apiary.Daemon

open Table List

variable {order : List InstanceEntry} {r : InstanceEntry}

/-! ## The tables -/

/-- The state column, with the names of parks that are no longer written. -/
inductive StoredState where
  | current (state : InstanceState)
  | waiting
  | approvalWaiting
  deriving DecidableEq

/-- `liveInstanceStates`. -/
def StoredState.isListed : StoredState → Bool
  | .current .running => true
  | .waiting => true
  | .approvalWaiting => true
  | _ => false

/-- Running, or parked for something that can still arrive. -/
def StoredState.isLive : StoredState → Bool
  | .current (.blocked reason) =>
    reason = .approval || reason = .ci || reason = .dependency
  | state => state.isListed

/-- Where the run of an instance is; `busy` says that a step of it is in flight or picked. -/
inductive RunPlace where
  | firstDrive
  | parked
  | resuming (busy : Bool)
  | flagged (busy : Bool)
  /-- Its final state is still to be written. -/
  | settling
  | gone
  deriving DecidableEq

/-- `StopParked`. -/
def RunPlace.stop : RunPlace → RunPlace
  | .parked => .gone
  | .resuming busy => .flagged busy
  | place => place

/-- Nothing of the run starts any more, and nothing of it writes the row. -/
def RunPlace.isOver : RunPlace → Bool
  | .flagged busy => !busy
  | .gone => true
  | _ => false

/-- The engine holds the run and nothing of it is under way, or it is over. -/
def RunPlace.isAtRest : RunPlace → Bool
  | .parked => true
  | .resuming busy => !busy
  | place => place.isOver

structure InstanceEntry where
  id : String
  task : String := ""
  workflow : String
  source : String
  cell : String
  state : StoredState := .current .running
  run : RunPlace := .firstDrive
  /-- It runs from a job of the queue that is not over. -/
  leased : Bool := false

/-- The instances and the cancel functions of what is in flight. -/
structure Desk where
  rows : List InstanceEntry
  ids : (rows.map InstanceEntry.id).Nodup
  /-- The instances that registered a step. -/
  instanceCancel : List String := []
  /-- The run that was last started for an item id. -/
  runCancel : String → Option String := fun _ => none

/-- What the store and the source answer during a pass. -/
structure PassAnswers where
  lists : Bool := true
  resolves : Bool := true
  reads : String → Bool := fun _ => true
  writes : String → Bool := fun _ => true

/-- What a stop does to other parts of the daemon. -/
inductive Effect where
  /-- `RequestCancelFor`. -/
  | cancelWork (task workflow : String)
  | cancel (id : String)
  /-- The engine forgets the instance, and its row is written. -/
  | interrupt (id : String)

/-- The effect reaches the instance. -/
def Effect.hits (r : InstanceEntry) : Effect → Bool
  | .cancelWork task workflow =>
    r.leased && task ≠ "" && workflow ≠ "" && r.task = task && r.workflow = workflow
  | .cancel id => r.id = id
  | .interrupt id => r.id = id

/-! ## Stopping -/

def Desk.write (s : Desk) (a : PassAnswers) (id : String) (state : StoredState) : Desk :=
  { s with
    rows := update (fun r => r.id = id && a.writes id) (fun r => { r with state := state }) s.rows
    ids := nodup_update s.ids fun _ _ => rfl }

/-- `forgetParked`. -/
def Desk.forget (s : Desk) (id : String) : Desk :=
  { s with
    rows := update (fun r => r.id = id) (fun r => { r with run := r.run.stop }) s.rows
    ids := nodup_update s.ids fun _ _ => rfl }

/-- Cancels the step of the instance, or the run of the item when it has none. -/
def Desk.cancelRun (s : Desk) (inst : InstanceEntry) : Desk × List Effect :=
  if inst.id ∈ s.instanceCancel then
    ({ s with instanceCancel := s.instanceCancel.filter (· ≠ inst.id) }, [.cancel inst.id])
  else
    match s.runCancel inst.cell with
    | some run => ({ s with runCancel := Function.update s.runCancel inst.cell none }, [.cancel run])
    | none => (s, [])

/-- `StopInstance`. -/
def Desk.stopInstance (s : Desk) (a : PassAnswers) (id : String) : Desk × List Effect :=
  match s.rows.find? fun r => r.id = id with
  | none => (s, [])
  | some inst =>
    if !a.reads id then (s, [])
    else if inst.state = .current .queued then
      -- a reservation is left by one conditional write
      (s.write a id (.current .canceled), [.cancelWork inst.task inst.workflow, .interrupt id])
    else
      let out := s.cancelRun inst
      ((out.1.forget id).write a id (.current (.blocked .interrupted)),
        .cancelWork inst.task inst.workflow :: (out.2 ++ [.interrupt id]))

def Desk.stopAll (a : PassAnswers) : List InstanceEntry → Desk → Desk × List Effect
  | [], s => (s, [])
  | inst :: rest, s =>
    let out := s.stopInstance a inst.id
    let after := Desk.stopAll a rest out.1
    (after.1, out.2 ++ after.2)

/-- `checkResolved`, for a source that opted in and can answer.  The items are kept in a map,
which is read in any `order`. -/
def Desk.checkResolved (s : Desk) (optedIn : Bool) (a : PassAnswers) (order : List InstanceEntry) :
    Desk × List Effect :=
  if optedIn && a.lists && a.resolves then Desk.stopAll a order s else (s, [])

/-! ## What a pass reaches -/

/-- Where the machine of stops has the run. -/
def StopState.place (s : StopState) : RunPlace :=
  match s.hold with
  | .firstDrive => .firstDrive
  | .parked => .parked
  | .resuming => .resuming (!quiet s.drive)
  | .flagged => .flagged (!quiet s.drive)
  | .gone => if s.settling = .idle then .gone else .settling

/-- The stop of the engine is the stop of the place. -/
theorem place_stopParked (s : StopState) (hsettling : s.hold = .parked → s.settling = .idle) :
    s.stopParked.1.place = s.place.stop := by
  cases hhold : s.hold with
  | parked =>
    simp [StopState.stopParked, StopState.place, hhold, hsettling hhold, RunPlace.stop]
  | gone =>
    rw [StopState.stopParked, hhold, StopState.place, hhold]
    dsimp only
    split <;> rfl
  | firstDrive | resuming | flagged =>
    simp [StopState.stopParked, StopState.place, hhold, RunPlace.stop, quiet]

/-- A run at rest is one that a stop may look for. -/
theorem atRest_of_place {s : StopState} (hrest : s.place.isAtRest = true) : s.atRest = true := by
  rw [StopState.place] at hrest
  rw [StopState.atRest]
  cases hhold : s.hold with
  | gone =>
    rw [hhold] at hrest
    by_cases hidle : s.settling = .idle
    · simp [hidle]
    · simp [hidle, RunPlace.isAtRest, RunPlace.isOver] at hrest
  | firstDrive => rwa [hhold] at hrest
  | resuming =>
    rw [hhold] at hrest
    simpa [RunPlace.isAtRest] using hrest
  | parked | flagged => rfl

/-! ## One stop after the other -/

section Pass

variable {s₀ s : Desk} {a : PassAnswers} {done : List String} {inst : InstanceEntry}

section Found

variable (hfound : s.rows.find? (fun r => r.id = inst.id) = some inst)
  (hrun : inst.state ≠ .current .queued)

include hfound hrun

end Found

/-- The instances that are still to be stopped. -/
structure Stoppable (s₀ : Desk) (done : List String) (order : List InstanceEntry) : Prop where
  listed : ∀ r ∈ order, r ∈ s₀.rows ∧ r.state ≠ .current .queued ∧ r.id ∉ done
  distinct : (order.map InstanceEntry.id).Nodup

theorem Stoppable.tail {rest : List InstanceEntry} (h : Stoppable s₀ done (inst :: rest)) :
    Stoppable s₀ (inst.id :: done) rest := by
  have hdistinct := h.distinct
  rw [map_cons, nodup_cons] at hdistinct
  refine ⟨?_, hdistinct.2⟩
  intro r hr
  obtain ⟨hrow, hrun, hnew⟩ := h.listed r (mem_cons_of_mem _ hr)
  refine ⟨hrow, hrun, ?_⟩
  rw [mem_cons, not_or]
  refine ⟨?_, hnew⟩
  intro hid
  exact hdistinct.1 (hid ▸ mem_map_of_mem hr)

/-- The stop of `inst` reaches the instance `r`. -/
def Desk.Reaches (s : Desk) (a : PassAnswers) (inst r : InstanceEntry) : Prop :=
  a.reads inst.id = true ∧
    (Effect.hits r (.cancelWork inst.task inst.workflow) = true ∨ r.id = inst.id ∨
      inst.id ∉ s.instanceCancel ∧ s.runCancel inst.cell = some r.id)

section Reach

variable (r : InstanceEntry) (hfound : s.rows.find? (fun r => r.id = inst.id) = some inst)
  (hrun : inst.state ≠ .current .queued)

include hfound hrun

end Reach

end Pass

/-! ## The whole pass -/

section Check

variable {source : String} {isResolved : String → Bool} {s : Desk} {a : PassAnswers}
  {order : List InstanceEntry}

end Check

end Apiary.Daemon
