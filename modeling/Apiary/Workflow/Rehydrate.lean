import Mathlib.Data.List.Find
import Apiary.Workflow.Recovery

/-!
# Parking again after a restart

A parked run has no goroutine that survives a restart.  The next daemon rebuilds it
from its rows and looks for the step it was parked at: the first runnable approval, or
the first runnable wait.  Approvals, waits, splits, groups and foreach steps write no
row of their own, so the search starts from a run in which none of them has happened.
It finds the step again exactly when none of them matters to it.
-/

namespace Apiary.Workflow

open Config List Option StepRun Machine DriveState Bool

variable {rows : List StepRun} {s t : DriveState}

/-! ## What a restart does -/

/-- The restart of a parked run; the persisted reason of the park picks the path. -/
def DriveState.rehydrated (s : DriveState) (now : ℕ) : Option DriveState :=
  let fresh := initDAG s.run.instID s.run.wf s.run.cell [] fun _ => none
  if s.run.waitStepConfig.2 then rehydrateWait fresh s.rows now s.nextRow
  else rehydrateApproval fresh s.rows s.run.parkedAt s.nextRow

/-- `t` is parked at the step that `s` is parked at, and counts the same steps as
passed. -/
structure ParksAgain (s t : DriveState) : Prop where
  parked : t.phase = .parked
  step : t.run.waitingStep = s.run.waitingStep
  passed : ∀ id ∈ order s.run.wf, t.run.state id = some .passed ↔ s.run.state id = some .passed

/-! ## What it depends on -/

/-- The steps with a row under their own id. -/
def ownsRow (s : StepConfig) : Bool := s.type = .agent || s.type = .workflow

section Conditions

variable (s : DriveState)

def DriveState.hasPassed (id : String) : Bool :=
  id ∈ order s.run.wf && s.run.state id = some .passed

/-- The steps that a restart looks for: approvals, or waits and groups with one. -/
def DriveState.sameKind (id : String) : Bool :=
  if s.run.waitStepConfig.2 then (waitParkOf s.run.wf id).isSome
  else (byID s.run.wf id).type = .approval

/-- Every dependency of the step has passed, and it is active from the start or by the
`on_pass` of a step that passed. -/
def DriveState.reached (id : String) : Bool :=
  (!splitTarget s.run.wf id || (order s.run.wf).any fun prev =>
      s.hasPassed prev && activates s.run.wf id prev) &&
    ((byID s.run.wf id).dependsOn ++ (byID s.run.wf id).seqDependsOn).all s.hasPassed

/-- Only steps with a row of their own have passed, and the step that the run waits at
is the first of its kind that they lead to. -/
def DriveState.rehydratable : Bool :=
  ((order s.run.wf).all fun id => !s.hasPassed id || ownsRow (byID s.run.wf id)) &&
    (order s.run.wf).find? (fun id => s.sameKind id && s.reached id) = some s.run.waitingStep

end Conditions

/-! ## Rows of steps -/

/-- Every row under the id of a step belongs to an agent or sub-workflow step. -/
def RowsOwned (wf : WorkflowConfig) (rows : List StepRun) : Prop :=
  ∀ row ∈ rows, row.stepID ∈ order wf → ownsRow (byID wf row.stepID) = true

theorem RowsOwned.of_stepIDs {wf : WorkflowConfig} {rows' : List StepRun}
    (howned : RowsOwned wf rows) (hids : rows'.map stepID = rows.map stepID) :
    RowsOwned wf rows' := by
  intro row hrow hid
  have hmem : row.stepID ∈ rows.map stepID := hids ▸ List.mem_map.mpr ⟨row, hrow, rfl⟩
  obtain ⟨old, hold, heq⟩ := List.mem_map.mp hmem
  rw [← heq] at hid ⊢
  exact howned old hold hid

theorem updateRow_stepIDs {n : ℕ} {f : StepRun → StepRun} (hf : ∀ row, (f row).stepID = row.stepID) :
    (updateRow n f rows).map stepID = rows.map stepID := by
  rw [updateRow, List.map_map]
  apply map_congr_left
  intro row _
  by_cases hn : row.id = n <;> simp [hn, hf]

theorem markStepRunFailed_stepIDs (rows : List StepRun) (key : Option ℕ) (output : String) :
    (markStepRunFailed rows key output).map stepID = rows.map stepID := by
  cases key with
  | none => rfl
  | some => exact updateRow_stepIDs fun _ => rfl

section Owned

variable {e : Engine} {s t : DriveState}

theorem finishUnit_stepIDs (s : DriveState) (w : Worker) (u : UnitRun) (n : ℕ) (res : StepResult) :
    (s.finishUnit w u n res).1.rows.map stepID = s.rows.map stepID := by
  have hfinish : ∀ own : StepResult, (updateRow n (finishRow own) s.rows).map stepID =
      s.rows.map stepID := fun own => updateRow_stepIDs fun _ => rfl
  rw [finishUnit]
  dsimp only
  split <;> dsimp only
  · split
    · rw [markStepRunFailed_stepIDs]
      split
      · exact hfinish _
      · rfl
    · split
      · exact hfinish _
      · rfl
  · split
    · exact hfinish _
    · rfl

/-- Units with a row that share their id with a step are that step. -/
theorem RowsOwned.started (hids : DistinctIDs s.run.wf) (howned : RowsOwned s.run.wf s.rows)
    {w : Worker} {u : UnitRun} (hw : w.step ∈ s.run.wf.steps) (hunit : UnitOf w.step u.step) :
    RowsOwned s.run.wf (s.startUnit w u).1.rows := by
  rw [startUnit]
  split
  · exact howned
  · dsimp only
    split_ifs with hwrites
    · rw [and_eq_true] at hwrites
      refine Table.forall_insert howned fun hid => ?_
      change u.step.id ∈ order s.run.wf at hid
      change ownsRow (byID s.run.wf u.step.id) = true
      rcases hunit.cases with ⟨htype, hchild⟩ | ⟨hforeach, body, index, hitem⟩ | ⟨-, -, hself⟩
      · exact absurd hid (hids.nested _ (mem_groupChildren hw htype hchild))
      · rw [hitem] at hid
        exact absurd hid (hids.items w.step hw hforeach body index).1
      · have htype := hwrites.1
        rw [Worker.writesRow, hself] at htype
        rw [hself, hids.byID_eq hw, ownsRow]
        simpa using htype
    · exact howned

/-- The loop writes no rows; the gates only mark one failed. -/
theorem SchedStepped.stepIDs {now : ℕ} (hstep : SchedStepped e now s t) :
    t.rows.map stepID = s.rows.map stepID := by
  cases hstep with
  | dispatch id ids hphase out hout => cases hout <;> rfl
  | quiesce hphase hnone t hquiesced => cases hquiesced <;> rfl
  | receive wr rest hphase hresult t hreceived =>
    cases hreceived with
    | applied hstopped hparks t happlied =>
      have hrecorded : (recorded e (s.take rest) wr).rows.map stepID = s.rows.map stepID := by
        rw [recorded]
        dsimp only
        split
        · exact markStepRunFailed_stepIDs _ _ _
        · rfl
      cases happlied <;> exact hrecorded
    | _ => rfl
  | _ => rfl

theorem RowsOwned.step (hids : DistinctIDs s.run.wf) (hs : WellFormed s)
    (howned : RowsOwned s.run.wf s.rows) {ev : Event} (hstep : step e s ev = some t) :
    RowsOwned t.run.wf t.rows := by
  rw [step_wf hstep]
  cases step_cases hstep with
  | sched now t hsched => exact howned.of_stepIDs hsched.stepIDs
  | worker index act w hw t hworker =>
    have hof := hs.workers w (mem_of_getElem? hw)
    cases hworker with
    | spawn | deliver => exact howned
    | start unit u hunit =>
      exact howned.started hids hof.declared (hof.units u (mem_of_getElem? hunit))
    | finish unit u row res => exact howned.of_stepIDs (finishUnit_stepIDs s w u row res)
  | cancel | stop | resolve | wake => exact howned

end Owned

/-! ## The search in the rebuilt run -/

section Search

variable {α β : Type*} {p : α → Bool} {xs : List α}

/-- A search that returns what it found together with more. -/
theorem findSome?_map_fst {f : α → Option (α × β)} (hf : ∀ x y, f x = some y → y.1 = x) :
    (xs.findSome? f).map Prod.fst = xs.find? fun x => (f x).isSome := by
  induction xs with
  | nil => rfl
  | cons x xs ih =>
    rw [findSome?_cons, find?_cons]
    cases hx : f x with
    | none => exact ih
    | some y => exact congrArg some (hf x y hx)

end Search

theorem rehydrated_eq (s : DriveState) (now : ℕ) :
    (s.rehydrated now).map (fun t => (t.phase, t.run.waitingStep, t.run.state)) =
      (s.restored.runnable.find? s.sameKind).map fun id =>
        (.parked, id, Function.update s.restored.state id (some .waiting)) := by
  have hwf : s.restored.wf = s.run.wf := rebuilt_wf _ _ _ _
  rw [rehydrated]
  by_cases hwait : s.run.waitStepConfig.2 = true
  · have hkind : s.sameKind = fun id => (waitParkOf s.restored.wf id).isSome := by
      funext id
      rw [sameKind, if_pos hwait, hwf]
    rw [if_pos hwait, hkind, ← findSome?_map_fst fun id park h => (waitParkOf_spec h).1,
      rehydrateWait, Option.map_map, Option.map_map]
    rfl
  · have hkind : s.sameKind = fun id => decide ((byID s.restored.wf id).type = .approval) := by
      funext id
      rw [sameKind, if_neg hwait, hwf]
    rw [if_neg hwait, hkind, rehydrateApproval, Option.map_map]
    rfl

/-! ## The rebuilt run at a park -/

section Parked

variable {e : Engine} {s : DriveState} (hids : DistinctIDs s.run.wf) (hs : WellFormed s)
  (hl : Ledger e s) (howned : RowsOwned s.run.wf s.rows) (hparked : s.phase = .parked)

include hids hs hl howned hparked

theorem restored_passed_iff (id : String) : s.restored.state id = some .passed ↔
      s.hasPassed id = true ∧ ownsRow (byID s.run.wf id) = true := by
  have hempty := hs.inFlightIDs_eq_nil (hs.quiet (by simp [hparked, Phase.driving]))
  have hbusy : s.busyIDs = [] := by rw [busyIDs, hparked, hempty]; rfl
  have hcounted : ∀ step ∈ s.run.wf.steps, ownsRow step = true →
      (step.id ∈ doneIDs s.rows ↔ s.run.state step.id = some .passed) := by
    intro step hstep howns
    have hparallel : step.type ≠ .parallel := fun h => by simp [ownsRow, h] at howns
    have hhas : hasRows step = true := by
      simp only [ownsRow, or_eq_true, decide_eq_true_eq] at howns
      rcases howns with h | h <;> simp [hasRows, h]
    have hsettled := hl.counts.settled step hstep hhas (by simp [hbusy]) step
      (hasRows_unitOf hhas hparallel).1
    rwa [DagRun.Counts, if_neg hparallel] at hsettled
  rw [restored, rebuilt_state_iff, hasPassed, and_eq_true,
    decide_eq_true_eq, decide_eq_true_eq]
  constructor
  · rintro ⟨hdone, hrestorable⟩
    obtain ⟨row, hrow, -, rfl⟩ := mem_doneIDs.mp hdone
    obtain ⟨step, hstep, hid⟩ : ∃ step ∈ s.run.wf.steps, step.id = row.stepID := by
      cases hfind : findStep row.stepID s.run.wf.steps with
      | none => simp [restorable, hfind] at hrestorable
      | some step => exact ⟨step, findStep_eq_some hfind⟩
    have horder : row.stepID ∈ order s.run.wf := hid ▸ mem_order hstep
    have howns := howned row hrow horder
    rw [← hid, hids.byID_eq hstep] at howns
    rw [← hid] at hdone ⊢
    rw [hids.byID_eq hstep]
    exact ⟨⟨mem_order hstep, (hcounted step hstep howns).mp hdone⟩, howns⟩
  · rintro ⟨⟨horder, hpassed⟩, howns⟩
    obtain ⟨step, hstep, rfl⟩ := List.mem_map.mp horder
    rw [hids.byID_eq hstep] at howns
    refine ⟨(hcounted step hstep howns).mpr hpassed, hids.restorable hstep ?_⟩
    intro hsplit
    simp [ownsRow, hsplit] at howns

variable (hown : ∀ id, s.hasPassed id = true → ownsRow (byID s.run.wf id) = true)

include hown

theorem restored_passed (id : String) :
    s.restored.state id = some .passed ↔ s.hasPassed id = true := by
  rw [restored_passed_iff hids hs hl howned hparked]
  exact and_iff_left_of_imp (hown id)

theorem restored_activated_iff {id : String} (hid : id ∈ order s.run.wf) :
    s.restored.activated id = (!splitTarget s.run.wf id || (order s.run.wf).any fun prev =>
      s.hasPassed prev && activates s.run.wf id prev) := by
  rw [Bool.eq_iff_iff, restored, restored_activated, Bool.or_eq_true]
  apply or_congr
  · simp [initDAG, hid]
  · rw [List.any_eq_true]
    constructor
    · rintro ⟨prev, hdone, hactivates⟩
      have hrestorable : restorable s.run.wf prev = true := by
        rw [activates, and_eq_true] at hactivates
        exact hactivates.1
      have hpassed := (restored_passed hids hs hl howned hparked hown prev).mp
        ((rebuilt_state_iff _ _ _ _ _).mpr ⟨hdone, hrestorable⟩)
      have horder := hpassed
      rw [hasPassed, and_eq_true, decide_eq_true_eq] at horder
      exact ⟨prev, horder.1, by rw [hpassed]; exact hactivates⟩
    · rintro ⟨prev, -, hboth⟩
      rw [and_eq_true] at hboth
      have hpassed := (restored_passed hids hs hl howned hparked hown prev).mpr hboth.1
      exact ⟨prev, ((rebuilt_state_iff _ _ _ _ _).mp hpassed).1, hboth.2⟩

theorem restored_depsPassed (id : String) : depsPassed s.run.wf s.restored.state id =
      ((byID s.run.wf id).dependsOn ++ (byID s.run.wf id).seqDependsOn).all s.hasPassed := by
  have hrested : Rested s.restored.state := restored_rested _ _ _ _
  have hpassed : ∀ dep, decide (s.restored.state dep = some .passed) = s.hasPassed dep := by
    intro dep
    rw [Bool.eq_iff_iff, decide_eq_true_eq]
    exact restored_passed hids hs hl howned hparked hown dep
  have hskipped : ∀ dep, decide (s.restored.state dep = some .condSkipped) = false :=
    fun dep => decide_eq_false (hrested.ne (by decide) (by decide) dep)
  rw [depsPassed, all_append]
  simp only [hpassed, hskipped, Bool.or_false]

theorem restored_runnable {id : String} (hid : id ∈ order s.run.wf) :
    (s.restored.state id = some .pending && s.restored.activated id &&
        depsPassed s.restored.wf s.restored.state id && s.sameKind id) =
      (s.sameKind id && s.reached id) := by
  cases hkind : s.sameKind id with
  | false => rw [Bool.and_false, Bool.false_and]
  | true =>
    have hwf : s.restored.wf = s.run.wf := rebuilt_wf _ _ _ _
    have hnot : ownsRow (byID s.run.wf id) = false := by
      rw [sameKind] at hkind
      split at hkind
      · obtain ⟨park, hpark⟩ := isSome_iff_exists.mp hkind
        obtain ⟨-, hagent, hworkflow⟩ := waitParkOf_spec hpark
        simp [ownsRow, hagent, hworkflow]
      · rw [decide_eq_true_eq] at hkind
        simp [ownsRow, hkind]
    have hpending : s.restored.state id = some .pending := by
      have hdeclared : s.restored.state id ≠ none :=
        restored_declared _ _ _ _ (by rw [rebuilt_wf]; exact hid)
      rcases restored_rested s.run.instID s.run.wf s.run.cell s.rows id with h | h | h
      · exact absurd h hdeclared
      · exact h
      · have howns := ((restored_passed_iff hids hs hl howned hparked id).mp h).2
        simp [hnot] at howns
    rw [hpending, hwf, restored_activated_iff hids hs hl howned hparked hown hid,
      restored_depsPassed hids hs hl howned hparked hown, reached]
    simp

theorem restored_search : s.restored.runnable.find? s.sameKind =
      (order s.run.wf).find? fun id => s.sameKind id && s.reached id := by
  have hwf : s.restored.wf = s.run.wf := rebuilt_wf _ _ _ _
  rw [DagRun.runnable, pickAllRunnable, find?_filter]
  rw [show order s.restored.wf = order s.run.wf by rw [hwf]]
  apply find?_congr
  intro id hid
  rw [← restored_runnable hids hs hl howned hparked hown hid]
  simp [Bool.and_assoc]

end Parked

/-! ## Restarts of parked runs -/

theorem DriveState.own_rows_iff (s : DriveState) :
    ((order s.run.wf).all fun id => !s.hasPassed id || ownsRow (byID s.run.wf id)) = true ↔
      ∀ id, s.hasPassed id = true → ownsRow (byID s.run.wf id) = true := by
  rw [List.all_eq_true]
  constructor
  · intro hall id hpassed
    have horder := hpassed
    rw [hasPassed, and_eq_true, decide_eq_true_eq] at horder
    have hid := hall id horder.1
    rwa [hpassed, Bool.not_true, Bool.false_or] at hid
  · intro hown id _
    cases hpassed : s.hasPassed id with
    | false => rfl
    | true => exact hown id hpassed

theorem Ledger.parksAgain_iff {e : Engine} (hids : DistinctIDs s.run.wf) (hs : WellFormed s)
    (hl : Ledger e s) (howned : RowsOwned s.run.wf s.rows) (hparked : s.phase = .parked) (now : ℕ) :
    (∃ t, s.rehydrated now = some t ∧ ParksAgain s t) ↔ s.rehydratable = true := by
  have hwaiting : s.run.state s.run.waitingStep ≠ some .passed := by
    obtain ⟨step, -, hid, hstate, -⟩ : PhaseOk s.run s.rows .parked := hparked ▸ hl.phase
    rw [← hid, hstate]
    simp
  have hsearch := rehydrated_eq s now
  rw [rehydratable, and_eq_true, s.own_rows_iff, decide_eq_true_eq]
  constructor
  · rintro ⟨t, ht, hparks⟩
    rw [ht, map_some, eq_comm, map_eq_some_iff] at hsearch
    obtain ⟨id, hfind, hobs⟩ := hsearch
    rw [Prod.mk.injEq, Prod.mk.injEq] at hobs
    obtain ⟨-, hid, hstate⟩ := hobs
    have hown : ∀ id, s.hasPassed id = true → ownsRow (byID s.run.wf id) = true := by
      intro other hpassed
      have hboth := hpassed
      rw [hasPassed, and_eq_true, decide_eq_true_eq, decide_eq_true_eq] at hboth
      have hagain := (hparks.passed other hboth.1).mpr hboth.2
      have hne : other ≠ id := by
        rintro rfl
        rw [hid, hparks.step] at hboth
        exact hwaiting hboth.2
      rw [← hstate, Function.update_of_ne hne] at hagain
      exact ((restored_passed_iff hids hs hl howned hparked other).mp hagain).2
    refine ⟨hown, ?_⟩
    rw [← restored_search hids hs hl howned hparked hown, hfind, hid, hparks.step]
  · rintro ⟨hown, hfind⟩
    rw [← restored_search hids hs hl howned hparked hown] at hfind
    rw [hfind, map_some, map_eq_some_iff] at hsearch
    obtain ⟨t, ht, hobs⟩ := hsearch
    rw [Prod.mk.injEq, Prod.mk.injEq] at hobs
    obtain ⟨hphase, hid, hstate⟩ := hobs
    refine ⟨t, ht, hphase, hid, ?_⟩
    intro id horder
    rw [hstate]
    by_cases hsame : id = s.run.waitingStep
    · subst hsame
      rw [Function.update_self]
      exact iff_of_false (by simp) hwaiting
    · rw [Function.update_of_ne hsame, restored_passed hids hs hl howned hparked hown,
        hasPassed]
      simp [horder]

/-! ## The life of an instance -/

/-- An instance runs, and the daemon may be restarted while it is parked. -/
inductive LifeEvent where
  | run (ev : Event)
  | restart (now : ℕ)

def lifeStep (e : Engine) (s : DriveState) : LifeEvent → Option DriveState
  | .run ev => step e s ev
  | .restart now =>
    match s.phase with
    | .parked => s.rehydrated now
    | _ => none

def lifeFollowsRows (e : Engine) (s : DriveState) : LifeEvent → Bool
  | .run ev => followsRows e s ev
  | .restart _ => true

/-- A restarted run starts from its own rows. -/
theorem rehydrated_begins {now : ℕ} (hback : s.rehydrated now = some t)
    (hfresh : ∀ row ∈ s.rows, row.id < s.nextRow) :
    Begins t ∧ t.run.wf = s.run.wf ∧ t.rows = s.rows := by
  rw [rehydrated] at hback
  split at hback
  · refine ⟨.wait _ _ _ _ _ _ hfresh t hback, ?_⟩
    rw [rehydrateWait, map_eq_some_iff] at hback
    obtain ⟨park, -, rfl⟩ := hback
    exact ⟨rebuilt_wf _ _ _ _, rfl⟩
  · refine ⟨.approval _ _ _ _ _ _ hfresh t hback, ?_⟩
    rw [rehydrateApproval, map_eq_some_iff] at hback
    obtain ⟨id, -, rfl⟩ := hback
    exact ⟨rebuilt_wf _ _ _ _, rfl⟩

/-- What holds of an instance throughout its life. -/
structure Lives (e : Engine) (s : DriveState) : Prop where
  ids : DistinctIDs s.run.wf
  wellFormed : WellFormed s
  ledger : Ledger e s
  owned : RowsOwned s.run.wf s.rows

theorem Lives.step {e : Engine} (hs : Lives e s) {ev : LifeEvent}
    (hguard : lifeFollowsRows e s ev = true) (hstep : lifeStep e s ev = some t) : Lives e t := by
  cases ev with
  | run =>
    exact ⟨step_wf hstep ▸ hs.ids, hs.wellFormed.step hstep,
      hs.ledger.step hs.ids hs.wellFormed hguard hstep, hs.owned.step hs.ids hs.wellFormed hstep⟩
  | restart =>
    rw [lifeStep] at hstep
    split at hstep
    · obtain ⟨hbegins, hwf, hrows⟩ := rehydrated_begins hstep hs.ledger.table.fresh
      have hids : DistinctIDs t.run.wf := hwf ▸ hs.ids
      refine ⟨hids, hbegins.initial.started.wellFormed, hbegins.ledger hids, ?_⟩
      rw [hwf, hrows]
      exact hs.owned
    · cases hstep

/-- In every life of an instance whose rows follow it, with any number of restarts, a
restart at a park brings the run back to the same park with the same steps passed if and
only if only steps with rows have passed and the waiting step is the first of its kind
that they lead to. -/
theorem rehydrate_parks_again_iff (e : Engine) {instID : String} {wf : WorkflowConfig}
    {cell : SourceItem} {seed : List MemoryStep} {event : String → Option String}
    (hids : DistinctIDs wf) {events : List LifeEvent} {t : DriveState}
    (hguarded : Machine.Guarded (lifeStep e) (fun s ev => lifeFollowsRows e s ev = true)
      { run := initDAG instID wf cell seed event } events)
    (hrun : exec (lifeStep e) { run := initDAG instID wf cell seed event } events = some t)
    (hparked : t.phase = .parked) (now : ℕ) :
    (∃ u, t.rehydrated now = some u ∧ ParksAgain t u) ↔ t.rehydratable = true := by
  have hbegins : Begins { run := initDAG instID wf cell seed event } := .fresh _ _ _ _ _
  have hstart : Lives e { run := initDAG instID wf cell seed event } :=
    ⟨hids, hbegins.initial.started.wellFormed, hbegins.ledger hids, by simp [RowsOwned]⟩
  have hkept : ∀ s ev s', Lives e s → lifeFollowsRows e s ev = true → lifeStep e s ev = some s' →
      Lives e s' := fun s ev s' hs hguard hstep => hs.step hguard hstep
  have hlives := exec_invariant hkept hstart hguarded hrun
  exact hlives.ledger.parksAgain_iff hlives.ids hlives.wellFormed hlives.owned hparked now

theorem Phase.parked_of {phase : Phase} (hdriving : phase.driving = false)
    (houtcome : phase.outcome? = none) : phase = .parked := by
  cases phase with
  | parked => rfl
  | ended => cases houtcome
  | _ => cases hdriving

/-! ## A shipping workflow

A build is reviewed and then shipped, each with an approval of its own. -/

def shipWorkflow : WorkflowConfig where
  id := "ship"
  steps :=
    [{ id := "build" },
     { id := "review", type := .approval, seqDependsOn := ["build"], approvers := ["alice"] },
     { id := "ship", type := .approval, seqDependsOn := ["review"], approvers := ["bob"] }]

theorem shipWorkflow_distinctIDs : DistinctIDs shipWorkflow := by
  refine ⟨by decide, by decide, by decide, ?_⟩
  have hnone : ∀ s ∈ shipWorkflow.steps, s.type ≠ .foreach := by decide
  exact fun s hs hforeach => absurd hforeach (hnone s hs)

/-- The build passes and the run parks at the review; the daemon is restarted there. -/
def parkAtReview : List LifeEvent :=
  (List.replicate 4 (Event.sched 0) ++ runWorker 0 { success := true } ++
    List.replicate 7 (Event.sched 0)).map .run ++ [.restart 1]

/-- The review is approved and the run parks at the second gate. -/
def parkAtShip : List LifeEvent :=
  parkAtReview ++ (Event.resolve true {} :: List.replicate 6 (Event.sched 2)).map .run

def shipStart : DriveState := { run := initDAG "wf-1" shipWorkflow {} [] fun _ => none }

/-- Parked at the review, the run comes back to it. -/
theorem ship_parkAtReview_again :
    ∃ t, exec (lifeStep (plainEngine 2)) shipStart parkAtReview = some t ∧
      t.run.waitingStep = "review" ∧ t.run.state "build" = some .passed ∧
      ∃ u, t.rehydrated 2 = some u ∧ ParksAgain t u := by
  have hparked : ((exec (lifeStep (plainEngine 2)) shipStart parkAtReview).get
      (by decide)).phase = .parked := Phase.parked_of (by decide) (by decide)
  refine ⟨_, exec_get (by decide), by decide, by decide, ?_⟩
  exact (rehydrate_parks_again_iff (plainEngine 2) shipWorkflow_distinctIDs (by decide) (exec_get _) hparked
    2).mpr (by decide)

/-- Parked at the second gate, the run comes back to the first one, which has passed:
the approval left no row. -/
theorem ship_parkAtShip_elsewhere :
    ∃ t u, exec (lifeStep (plainEngine 2)) shipStart parkAtShip = some t ∧
      t.rehydrated 3 = some u ∧ t.run.waitingStep = "ship" ∧
      t.run.state "review" = some .passed ∧ u.run.waitingStep = "review" ∧ ¬ ParksAgain t u := by
  refine ⟨_, _, exec_get (by decide), (some_get (by decide)).symm, by decide, by decide, by decide, ?_⟩
  exact fun hparks => nomatch hparks.step

end Apiary.Workflow
