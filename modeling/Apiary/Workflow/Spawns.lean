import Apiary.Core.Table
import Apiary.Daemon.Rounds

/-!
# Spawned children

Requests to spawn the child of a parent under one key find the task that has it, or create it,
launch its workflow and await the handle of that run.  The handles are kept in memory only; for
a child that is found without one, the state of its task stands for the outcome of its workflow.
-/

namespace Apiary.Workflow

open List Machine Option
open Daemon (TaskState)

inductive SpawnStage where
  | find
  | create
  | resolve
  | track (done : Bool)
  | launch
  | await
  | ended
  deriving DecidableEq

/-- `tasks` counts the rows with the parent and the key, `state` is the state in the row.
`outcome` is the terminal outcome of the child's workflow, `handle` what is tracked for it: a run
in flight, or the success that a closed handle reports.  `awaited` has what `Await` returned and
the outcome at that time. -/
structure Spawning where
  tasks : ℕ := 0
  state : TaskState := .queued
  launches : ℕ := 0
  outcome : Option Bool := none
  handle : Option (Option Bool) := none
  callers : List SpawnStage := []
  awaited : List (Bool × Option Bool) := []

/-- `runReturns` has no outcome when the run parks or cannot start; `settle` is the end of a
workflow that went on after that, or after a restart.  `write` is a change of the child's task
by anyone: the completion of its workflow, which counts failed rows of sub-workflows too,
another workflow of the task, the operator or the source.  `fail` is an error or a canceled
context. -/
inductive SpawnEvent where
  | spawn
  | advance (caller : ℕ)
  | fail (caller : ℕ)
  | runReturns (outcome : Option Bool)
  | settle (success : Bool)
  | write (state : TaskState)
  | restart

namespace Spawning

variable (s : Spawning)

/-- `FindChildByDedupKey`, with where a caller goes that finds no child. -/
def findChild (otherwise : SpawnStage) : SpawnStage :=
  if s.tasks = 0 then otherwise else .track (s.state = .done)

/-- `Spawn` and `Await`, one operation at a time; `none` while the handle is open. -/
def request : SpawnStage → Option (Spawning × SpawnStage)
  | .find => some (s, s.findChild .create)
  | .create =>
    -- the index on the parent and the key refuses a second row
    some (if s.tasks = 0 then ({ s with tasks := s.tasks + 1 }, .launch) else (s, .resolve))
  | .resolve => some (s, s.findChild .ended)
  -- `trackExisting`: a handle that is there is kept
  | .track done => some ({ s with handle := s.handle.or (some (some done)) }, .await)
  | .launch => some ({ s with handle := some none, launches := s.launches + 1 }, .await)
  | .await =>
    match s.handle with
    | some (some success) =>
      some ({ s with awaited := s.awaited ++ [(success, s.outcome)] }, .ended)
    | some none => none
    | none => some (s, .ended)
  | .ended => none

def step : SpawnEvent → Option Spawning
  | .spawn => some { s with callers := s.callers ++ [.find] }
  | .advance i => s.callers[i]?.bind fun stage => (s.request stage).map fun out =>
    { out.1 with callers := s.callers.set i out.2 }
  | .fail i => s.callers[i]?.map fun _ => { s with callers := s.callers.set i .ended }
  | .runReturns outcome =>
    if s.handle = some none then
      some { s with outcome := outcome.or s.outcome, handle := some (some (outcome = some true)) }
    else none
  | .settle success =>
    if s.outcome = none && s.handle ≠ some none then some { s with outcome := some success }
    else none
  | .write state => if 0 < s.tasks then some { s with state := state } else none
  | .restart => some { s with handle := none, callers := [] }

/-- A child that is found has a handle, or its workflow has ended the way the task was read, and
no run returns before the workflow has ended. -/
def orderly : SpawnEvent → Bool
  | .advance i => s.callers[i]?.all fun stage =>
    match stage with
    | .track done => s.handle.isSome || s.outcome = some done
    | _ => true
  | .runReturns outcome => outcome.isSome
  | _ => true

end Spawning

structure SpawnedOnce (s : Spawning) : Prop where
  tasks : s.tasks ≤ 1
  launches : s.launches + s.callers.countP (· = .launch) ≤ s.tasks

structure AwaitedEnd (s : Spawning) : Prop where
  handle : ∀ success, s.handle = some (some success) → s.outcome = some success
  awaited : ∀ answer ∈ s.awaited, answer.2 = some answer.1

variable {s t : Spawning} {ev : SpawnEvent} {es : List SpawnEvent} {i : ℕ} {stage : SpawnStage}

theorem findChild_ne_launch {otherwise : SpawnStage} (hne : otherwise ≠ .launch) :
    s.findChild otherwise ≠ .launch := by
  rw [Spawning.findChild]
  split <;> simp [hne]

theorem SpawnedOnce.step (hs : SpawnedOnce s) (hstep : s.step ev = some t) : SpawnedOnce t := by
  obtain ⟨htasks, hlaunches⟩ := hs
  cases ev with
  | spawn => exact some.inj hstep ▸ ⟨htasks, by simpa using hlaunches⟩
  | advance =>
    obtain ⟨stage, hat, hmap⟩ := bind_eq_some_iff.mp hstep
    obtain ⟨out, hout, rfl⟩ := map_eq_some_iff.mp hmap
    have hcount := Table.countP_set hat (· = SpawnStage.launch) out.2
    cases stage <;> simp only [Spawning.request] at hout
    case create =>
      split at hout <;> cases hout <;> simp at hcount
      · exact ⟨by simp_all, by dsimp only; omega⟩
      · exact ⟨htasks, by dsimp only; omega⟩
    case await => split at hout <;> cases hout <;> exact ⟨htasks, by simp at hcount ⊢; omega⟩
    case ended => cases hout
    all_goals
      cases hout
      refine ⟨htasks, ?_⟩
      simp [findChild_ne_launch] at hcount ⊢
      omega
  | fail =>
    obtain ⟨stage, hat, rfl⟩ := map_eq_some_iff.mp hstep
    have hcount := Table.countP_set hat (· = SpawnStage.launch) .ended
    exact ⟨htasks, by simp at hcount ⊢; omega⟩
  | runReturns | settle | write =>
    obtain ⟨-, ⟨⟩⟩ := ite_none_right_eq_some.mp hstep
    exact ⟨htasks, hlaunches⟩
  | restart => exact some.inj hstep ▸ ⟨htasks, Nat.le_trans (Nat.le_add_right _ _) hlaunches⟩

theorem AwaitedEnd.step (hs : AwaitedEnd s) (hguard : s.orderly ev = true)
    (hstep : s.step ev = some t) : AwaitedEnd t := by
  obtain ⟨hhandle, hawaited⟩ := hs
  cases ev with
  | spawn => exact some.inj hstep ▸ ⟨hhandle, hawaited⟩
  | advance =>
    obtain ⟨stage, hat, hmap⟩ := bind_eq_some_iff.mp hstep
    obtain ⟨out, hout, rfl⟩ := map_eq_some_iff.mp hmap
    rw [Spawning.orderly, hat, all_some] at hguard
    cases stage <;> simp only [Spawning.request] at hout
    case await =>
      split at hout <;> cases hout
      · rename_i success hclosed
        refine ⟨hhandle, forall_mem_append.mpr ⟨hawaited, ?_⟩⟩
        simpa using hhandle success hclosed
      · exact ⟨hhandle, hawaited⟩
    case create => split at hout <;> cases hout <;> exact ⟨hhandle, hawaited⟩
    case track done =>
      cases hout
      refine ⟨?_, hawaited⟩
      cases hold : s.handle <;> simp_all
    case launch =>
      cases hout
      exact ⟨by simp, hawaited⟩
    case ended => cases hout
    all_goals
      cases hout
      exact ⟨hhandle, hawaited⟩
  | fail =>
    obtain ⟨stage, -, rfl⟩ := map_eq_some_iff.mp hstep
    exact ⟨hhandle, hawaited⟩
  | runReturns =>
    obtain ⟨-, ⟨⟩⟩ := ite_none_right_eq_some.mp hstep
    obtain ⟨success, rfl⟩ := isSome_iff_exists.mp hguard
    exact ⟨by simp, hawaited⟩
  | settle =>
    obtain ⟨hopen, ⟨⟩⟩ := ite_none_right_eq_some.mp hstep
    rw [Bool.and_eq_true, decide_eq_true_eq] at hopen
    refine ⟨fun answer hclosed => ?_, hawaited⟩
    rw [hhandle answer hclosed] at hopen
    cases hopen.1
  | write =>
    obtain ⟨-, ⟨⟩⟩ := ite_none_right_eq_some.mp hstep
    exact ⟨hhandle, hawaited⟩
  | restart => exact some.inj hstep ▸ ⟨by simp, hawaited⟩

end Apiary.Workflow
