import Apiary.Workflow.Run

/-!
# Graph operations of the scheduler

Dependency gating, skip propagation, split routing and loop resets.  The skip
cascade only writes step states, so it is defined on the state map and lifted.
-/

namespace Apiary.Workflow

open Config Function

variable {last : StateMap} {id : String} {wf : WorkflowConfig}

abbrev StateMap := String → Option Status

/-! ## Runnable steps -/

section Runnable

variable (wf : WorkflowConfig) (state : StateMap)

def depsPassed (id : String) : Bool :=
  (byID wf id).dependsOn.all (fun dep => state dep = some .passed) &&
    (byID wf id).seqDependsOn.all fun dep =>
      state dep = some .passed || state dep = some .condSkipped

def pickAllRunnable (activated : String → Bool) : List String :=
  (order wf).filter fun id => state id = some .pending && activated id && depsPassed wf state id

/-- No split that can route to `id` is still pending. -/
def feedingSplitsDone (id : String) : Bool :=
  wf.steps.all fun s =>
    s.type ≠ .split || s.branches.all fun b => b.goto ≠ id || state s.id ≠ some .pending

end Runnable

/-! ## Skip propagation -/

/-- Skips a pending step that names `id` among `deps`; `skip` is the recursive
call of the cascade. -/
def skipIfDependent (skip : StateMap → String → StateMap) (id : String) (deps : List String)
    (state : StateMap) (other : String) : StateMap :=
  if state other = some .pending && id ∈ deps then skip state other else state

/-- The visit of one step by the cascade from `id`, for both dependency kinds. -/
def skipDependent (wf : WorkflowConfig) (skip : StateMap → String → StateMap) (id : String)
    (state : StateMap) (other : String) : StateMap :=
  skipIfDependent skip id (byID wf other).seqDependsOn
    (skipIfDependent skip id (byID wf other).dependsOn state other) other

/-- `markSkipped`.  The recursion is bounded by the number of steps, since each
call marks one more. -/
def cascadeSkip (wf : WorkflowConfig) : ℕ → StateMap → String → StateMap
  | 0, state, _ => state
  | fuel + 1, state, id =>
    if state id = some .skipped ∨ state id = some .condSkipped then state
    else
      (order wf).foldl (skipDependent wf (cascadeSkip wf fuel) id)
        (update state id (some .skipped))

def skipState (wf : WorkflowConfig) (state : StateMap) (id : String) : StateMap :=
  cascadeSkip wf (wf.steps.length + 1) state id

def DagRun.markSkipped (r : DagRun) (id : String) : DagRun :=
  { r with state := skipState r.wf r.state id }

def DagRun.markCondSkipped (r : DagRun) (id : String) : DagRun :=
  { r with
    state := update r.state id (some .condSkipped)
    stepStates := update r.stepStates id (some { state := .condSkipped }) }

/-- Whether a pending step can never run: a dependency ended without passing, or
it is an unchosen split target whose splits have all finished. -/
def unreachable (wf : WorkflowConfig) (activated : String → Bool) (state : StateMap)
    (id : String) : Bool :=
  (byID wf id).dependsOn.any (fun dep =>
      state dep = some .skipped || state dep = some .failed || state dep = some .condSkipped) ||
    (byID wf id).seqDependsOn.any (fun dep =>
      state dep = some .skipped || state dep = some .failed) ||
    (splitTarget wf id && !activated id && feedingSplitsDone wf state id)

/-- One step of a `skipUnreachable` pass. -/
def skipIfUnreachable (wf : WorkflowConfig) (activated : String → Bool)
    (acc : StateMap × Bool) (id : String) : StateMap × Bool :=
  if acc.1 id = some .pending && unreachable wf activated acc.1 id then
    (skipState wf acc.1 id, true)
  else acc

/-- One pass of `skipUnreachable`: the run and whether anything changed. -/
def skipUnreachable (r : DagRun) : DagRun × Bool :=
  let pass := (order r.wf).foldl (skipIfUnreachable r.wf r.activated) (r.state, false)
  ({ r with state := pass.1 }, pass.2)

def strandedSteps (r : DagRun) : List String :=
  (order r.wf).filter fun id => r.state id = some .pending

/-! ## Loop-backs -/

/-- The goto target and its transitive dependents. -/
def resetSet (wf : WorkflowConfig) (target : String) : List String :=
  Marking.mark (dependents wf) (wf.steps.length + 2) target []

/-- The ids whose memory contribution a reset clears: the reset steps and the
children of reset groups. -/
def clearedContribs (wf : WorkflowConfig) (target : String) : List String :=
  (resetSet wf target).flatMap fun id => id :: (byID wf id).subSteps.map StepConfig.id

def DagRun.resetLoop (r : DagRun) (target : String) : DagRun :=
  let contrib id := if id ∈ clearedContribs r.wf target then none else r.contrib id
  { r with
    state := fun id => if id ∈ resetSet r.wf target then some .pending else r.state id
    stepStates := fun id => if id ∈ resetSet r.wf target then none else r.stepStates id
    contrib := contrib
    passedOrder := (order r.wf).filter fun id => (contrib id).isSome }

/-! ## Effects on step states -/

/-- A change of step states in which every step that moved ended in an allowed
state. -/
def ChangesTo (allowed : Status → Prop) (old new : StateMap) : Prop :=
  ∀ id, new id = old id ∨ ∃ st, new id = some st ∧ allowed st

section Changes

variable {allowed allowed' : Status → Prop} {old new : StateMap}

theorem ChangesTo.refl (state : StateMap) : ChangesTo allowed state state := fun _ => .inl rfl

/-- Two changes to allowed states are one. -/
theorem ChangesTo.trans (hleft : ChangesTo allowed old new) (hright : ChangesTo allowed new last) :
    ChangesTo allowed old last := by
  intro id
  rcases hright id with heq | hnew
  · rw [heq]
    exact hleft id
  · exact .inr hnew

variable (hchange : ChangesTo allowed old new)

include hchange

theorem ChangesTo.mono (hallowed : ∀ st, allowed st → allowed' st) : ChangesTo allowed' old new :=
  fun id => (hchange id).imp_right fun ⟨st, heq, hst⟩ => ⟨st, heq, hallowed st hst⟩

omit hchange in
/-- Writing one step is a change to the state written. -/
theorem ChangesTo.update (state : StateMap) (id : String) {st : Status} (hst : allowed st) :
    ChangesTo allowed state (update state id (some st)) := by
  intro other
  by_cases hother : other = id
  · subst hother
    exact .inr ⟨st, Function.update_self .., hst⟩
  · exact .inl (Function.update_of_ne hother _ _)

theorem ChangesTo.ne_none (hold : old id ≠ none) : new id ≠ none := by
  rcases hchange id with heq | ⟨st, heq, -⟩
  · rwa [heq]
  · simp [heq]

/-- A step found in a state that is not allowed was there before. -/
theorem ChangesTo.of_not_allowed {st : Status} (hst : ¬ allowed st) (hnew : new id = some st) :
    old id = some st := by
  rcases hchange id with heq | ⟨st', heq, hst'⟩
  · rwa [← heq]
  · rw [hnew, Option.some.injEq] at heq
    exact absurd (heq ▸ hst') hst

end Changes

/-- A change of step states that skips pending steps, and of the others only those
it `may`. -/
def Skips (may : String → Prop) (old new : StateMap) : Prop :=
  ∀ id, new id = old id ∨ (new id = some .skipped ∧ (old id = some .pending ∨ may id))

section Skips

variable {may may' : String → Prop} {old new : StateMap}

theorem Skips.refl (state : StateMap) : Skips may state state := fun _ => .inl rfl

/-- Skips compose: a step skipped first stays skipped. -/
theorem Skips.trans (hleft : Skips may old new) (hright : Skips may new last) :
    Skips may old last := by
  intro id
  rcases hright id with heq | ⟨hskip, hfrom⟩
  · rw [heq]
    exact hleft id
  · refine .inr ⟨hskip, ?_⟩
    rcases hleft id with heq | ⟨-, hfrom'⟩
    · rwa [← heq]
    · exact hfrom'

theorem Skips.mono (hskips : Skips may old new) (hmay : ∀ id, may id → may' id) :
    Skips may' old new :=
  fun id => (hskips id).imp_right fun ⟨hskip, hfrom⟩ => ⟨hskip, hfrom.imp_right (hmay id)⟩

theorem Skips.changes (hskips : Skips may old new) : ChangesTo (fun st => st = .skipped) old new :=
  fun id => (hskips id).imp_right fun ⟨hskip, _⟩ => ⟨.skipped, hskip, rfl⟩

end Skips

/-- Going back to a target only makes steps pending. -/
theorem resetLoop_changes (r : DagRun) (target : String) :
    ChangesTo (fun st => st = .pending) r.state (r.resetLoop target).state := by
  intro id
  by_cases hid : id ∈ resetSet r.wf target
  · exact .inr ⟨.pending, by simp [DagRun.resetLoop, hid], rfl⟩
  · exact .inl (by simp [DagRun.resetLoop, hid])

theorem mem_order_of_mem_pickAllRunnable {state : StateMap} {activated : String → Bool}
    (hid : id ∈ pickAllRunnable wf state activated) : id ∈ order wf :=
  (List.mem_filter.mp hid).1

/-- A step of the order is found under its id. -/
theorem byID_spec (hid : id ∈ order wf) : byID wf id ∈ wf.steps ∧ (byID wf id).id = id := by
  obtain ⟨step, hstep, rfl⟩ := List.mem_map.mp hid
  cases hfind : findStep step.id wf.steps with
  | none => exact absurd rfl (findStep_eq_none hfind step hstep)
  | some =>
    obtain ⟨hfound, hfoundID⟩ := findStep_eq_some hfind
    simp [byID, hfind, hfound, hfoundID]

theorem byID_of_nodup {step : StepConfig} (hnodup : (order wf).Nodup) (hstep : step ∈ wf.steps) :
    byID wf step.id = step := by
  rw [byID, findStep_of_nodup hnodup hstep]
  rfl

theorem byID_mem (hid : id ∈ order wf) : byID wf id ∈ wf.steps := (byID_spec hid).1

theorem byID_id (hid : id ∈ order wf) : (byID wf id).id = id := (byID_spec hid).2

end Apiary.Workflow
