import Apiary.Workflow.UnitRows

/-!
# The rows against the live run

A resume or a rehydration rebuilds the run from the rows, so the rows with a done
state should be those of the steps and group children that count as passed in the
live run.  They are as long as nothing takes back a result whose row stays done:
rows are only ever added and ended, while the run is rolled back by loop-backs,
rejected by gates, and loses results that arrive while it parks or stops.
-/

namespace Apiary.Workflow

open Config List Option Function DriveState DagRun

variable {owner unit own : StepConfig} {group child : String} {st : Status} {wr : WorkerResult}
  {wf : WorkflowConfig} {rows : List StepRun} {nextRow : ℕ} {ctxErr : Option String}
  {state : StateMap} {activated : String → Bool} {busy busy' : List String} {r : DagRun}
  {phase : Phase}

/-! ## What the live run counts -/

/-- A child of a group counts while its group keeps it, and after its group passed
with it. -/
def DagRun.ChildCounts (r : DagRun) (group child : String) : Prop :=
  r.Keeps group child ∨ (r.state group = some .passed ∧ (r.contrib child).isSome)

/-- Whether a unit of the step `owner` counts as passed. -/
def DagRun.Counts (r : DagRun) (owner unit : StepConfig) : Prop :=
  if owner.type = .parallel then r.ChildCounts owner.id unit.id
  else r.state owner.id = some .passed

/-! ## What keeps the rows in step -/

/-- The ids under which a step and its children have rows. -/
def unitIDs (s : StepConfig) : List String := s.id :: s.subSteps.map StepConfig.id

/-- Neither the step nor a child of it has a done row. -/
def clean (rows : List StepRun) (s : StepConfig) : Bool :=
  (unitIDs s).all fun id => id ∉ doneIDs rows

/-- The children a group keeps as passed while it parks are agent steps that ended
before the context was canceled; the others have no done row. -/
def keepsAgents (s : DriveState) (wr : WorkerResult) : Bool :=
  wr.step.subSteps.all fun child =>
    (child.type = .agent && s.ctxErr.isNone) ||
      (child.id ∉ doneIDs s.rows && !(wr.parallel.done child.id).any StepResult.success)

/-- Taking the result `wr` leaves no done row for what does not count: a result that
is dropped or fails has none, unless the gates mark it failed. -/
def endsRows (e : Engine) (s : DriveState) (wr : WorkerResult) (rest : List WorkerResult) : Bool :=
  if s.run.stopped then clean s.rows wr.step
  else if parks wr then wr.step.type ≠ .parallel || keepsAgents s wr
  else if (gated e (s.take rest) wr).1.success then wr.step.type ≠ .parallel || joinsAgents wr
  else clean s.rows wr.step || (wr.step.type = .agent && (gated e (s.take rest) wr).2)

/-! ## The invariant -/

/-- The step whose result the loop holds while it drains the channel. -/
def Phase.held : Phase → List String
  | .drain wr => [wr.step.id]
  | _ => []

/-- The steps with a result that the loop has not applied. -/
def DriveState.busyIDs (s : DriveState) : List String := s.phase.held ++ s.inFlightIDs

/-- What the table says about everything in flight. -/
structure TableOk (e : Engine) (wf : WorkflowConfig) (rows : List StepRun) (nextRow : ℕ)
    (ctxErr : Option String) (workers : List Worker) (resultCh : List WorkerResult) : Prop where
  fresh : ∀ row ∈ rows, row.id < nextRow
  workers : ∀ w ∈ workers, WorkerOk rows nextRow ctxErr w
  results : ∀ wr ∈ resultCh, ResultOk e wf rows nextRow ctxErr wr

/-- Each step is in flight at most once, and running while it is. -/
structure FlightOk (state : StateMap) (activated : String → Bool) (busy : List String) : Prop where
  nodup : busy.Nodup
  running : ∀ id ∈ busy, state id = some .running
  activated : ∀ id, state id = some .running → activated id = true

/-- The rows of every step that is not in flight are those of what counts. -/
structure CountOk (r : DagRun) (rows : List StepRun) (busy : List String) : Prop where
  settled : ∀ owner ∈ r.wf.steps, hasRows owner = true → owner.id ∉ busy →
    ∀ unit, UnitOf owner unit → (unit.id ∈ doneIDs rows ↔ r.Counts owner unit)
  children : ∀ group ∈ r.wf.steps, group.type = .parallel → ∀ child ∈ group.subSteps,
    r.Keeps group.id child.id ∨ (r.contrib child.id).isSome → child.id ∈ doneIDs rows
  memos : ∀ group child res, r.memo group child = some res → res.pending = false

/-- What the loop knows at each of its stages. -/
def PhaseOk (r : DagRun) (rows : List StepRun) : Phase → Prop
  | .dispatch ids => ids.Nodup ∧ ∀ id ∈ ids,
      r.state id ≠ some .running ∧ r.state id ≠ some .passed ∧ r.activated id = true
  | .drain wr => parks wr = true ∧ (wr.step.type = .parallel →
      (∀ child ∈ wr.step.subSteps, (child.id ∈ doneIDs rows ↔
        ∃ res, wr.parallel.done child.id = some res ∧ res.success = true)) ∧
      ∀ child res, wr.parallel.done child = some res → res.pending = false)
  | .parked => ∃ step ∈ r.wf.steps, step.id = r.waitingStep ∧
      r.state step.id = some .waiting ∧ step.type ≠ .agent ∧ step.type ≠ .workflow
  | _ => True

structure Ledger (e : Engine) (s : DriveState) : Prop where
  table : TableOk e s.run.wf s.rows s.nextRow s.ctxErr s.workers s.resultCh
  flight : FlightOk s.run.state s.run.activated s.busyIDs
  counts : CountOk s.run s.rows s.busyIDs
  phase : PhaseOk s.run s.rows s.phase

section Counts

variable {r r' : DagRun} {rows rows' : List StepRun} {busy busy' : List String}

theorem clean_iff :
    clean rows owner = true ↔ owner.id ∉ doneIDs rows ∧ ∀ c ∈ owner.subSteps, c.id ∉ doneIDs rows := by
  simp [clean, unitIDs]

theorem clean_unit (hclean : clean rows owner = true) (hhas : hasRows owner = true)
    (hunit : UnitOf owner unit) : unit.id ∉ doneIDs rows := by
  obtain ⟨hown, hsub⟩ := clean_iff.mp hclean
  rcases hunit.recorded hhas with ⟨-, hchild⟩ | ⟨-, rfl⟩
  · exact hsub unit hchild
  · exact hown

/-- Nothing of a clean step counts unless it is passed. -/
theorem CountOk.not_counts (hc : CountOk r rows busy) (howner : owner ∈ r.wf.steps)
    (hclean : clean rows owner = true) (hunit : UnitOf owner unit)
    (hkeeps : ∀ child, r'.Keeps owner.id child → r.Keeps owner.id child)
    (hstate : r'.state owner.id ≠ some .passed) : ¬ r'.Counts owner unit := by
  rw [DagRun.Counts]
  split_ifs with htype
  · rw [UnitOf, htype] at hunit
    rintro (hkept | ⟨hpassed, -⟩)
    · exact (clean_iff.mp hclean).2 unit hunit
        (hc.children owner howner htype unit hunit (.inl (hkeeps _ hkept)))
    · exact hstate hpassed
  · exact hstate

theorem CountOk.change (hc : CountOk r rows busy) (hwf : r'.wf = r.wf)
    (hmemo : r'.parallelDone = r.parallelDone)
    (hcontrib : ∀ id, r'.contrib id = r.contrib id ∨ (r'.contrib id = none ∧ id ∉ doneIDs rows))
    (howner : ∀ owner ∈ r.wf.steps, hasRows owner = true → owner.id ∉ busy' →
      (owner.id ∉ busy ∧ (r'.state owner.id = some .passed ↔ r.state owner.id = some .passed)) ∨
        (clean rows owner = true ∧ r'.state owner.id ≠ some .passed)) :
    CountOk r' rows busy' := by
  have hkeeps : ∀ group child, r'.Keeps group child ↔ r.Keeps group child := by
    intro group child
    rw [DagRun.Keeps, memo, hmemo]
    rfl
  have hold : ∀ id, (r'.contrib id).isSome → (r.contrib id).isSome := by
    intro id hsome
    rcases hcontrib id with heq | ⟨hnone, -⟩
    · rwa [heq] at hsome
    · simp [hnone] at hsome
  refine ⟨?_, ?_, ?_⟩
  · intro owner hmem hhas hfree unit hunit
    rw [hwf] at hmem
    rcases howner owner hmem hhas hfree with ⟨hfree', hstate⟩ | ⟨hclean, hstate⟩
    · rw [hc.settled owner hmem hhas hfree' unit hunit, DagRun.Counts, DagRun.Counts]
      split_ifs with htype
      · have hchild := (unitOf_parallel htype).mp hunit
        have hsame : (r.contrib unit.id).isSome ↔ (r'.contrib unit.id).isSome := by
          refine ⟨fun hsome => ?_, hold unit.id⟩
          rcases hcontrib unit.id with heq | ⟨-, hrow⟩
          · rwa [heq]
          · exact absurd (hc.children owner hmem htype unit hchild (.inr hsome)) hrow
        rw [DagRun.ChildCounts, DagRun.ChildCounts, hkeeps, hstate, hsame]
      · exact hstate.symm
    · have hnot := hc.not_counts hmem hclean hunit (fun child => (hkeeps _ child).mp) hstate
      exact iff_of_false (clean_unit hclean hhas hunit) hnot
  · intro group hgroup htype child hchild hcase
    rw [hwf] at hgroup
    refine hc.children group hgroup htype child hchild ?_
    exact hcase.imp (hkeeps _ _).mp (hold child.id)
  · intro group child res hres
    rw [memo, hmemo] at hres
    exact hc.memos group child res hres

/-- A step is taken out of what is in flight, and nothing changes for the others. -/
theorem CountOk.settle {step : StepConfig} (hids : DistinctIDs r.wf)
    (hc : CountOk r rows (step.id :: busy)) (hdeclared : step ∈ r.wf.steps) (hwf : r'.wf = r.wf)
    (hstate : ∀ id, id ≠ step.id → r'.state id = r.state id)
    (hkeeps : ∀ group, group ≠ step.id → ∀ child, r'.Keeps group child ↔ r.Keeps group child)
    (hcontrib : ∀ owner ∈ r.wf.steps, owner.type = .parallel → owner.id ≠ step.id →
      ∀ child ∈ owner.subSteps, (r'.contrib child.id).isSome ↔ (r.contrib child.id).isSome)
    (hrows : ∀ owner ∈ r.wf.steps, hasRows owner = true → owner.id ≠ step.id →
      ∀ unit, UnitOf owner unit → (unit.id ∈ doneIDs rows' ↔ unit.id ∈ doneIDs rows))
    (hown : hasRows step = true → ∀ unit, UnitOf step unit →
      (unit.id ∈ doneIDs rows' ↔ r'.Counts step unit))
    (hchildren : step.type = .parallel → ∀ child ∈ step.subSteps,
      r'.Keeps step.id child.id ∨ (r'.contrib child.id).isSome → child.id ∈ doneIDs rows')
    (hmemos : ∀ group child res, r'.memo group child = some res → res.pending = false) :
    CountOk r' rows' busy := by
  refine ⟨?_, ?_, hmemos⟩
  · intro owner howner hhas hfree unit hunit
    rw [hwf] at howner
    by_cases hsame : owner.id = step.id
    · obtain rfl := hids.step_eq howner hdeclared hsame
      exact hown hhas unit hunit
    · rw [hrows owner howner hhas hsame unit hunit,
        hc.settled owner howner hhas (by simp [hsame, hfree]) unit hunit, DagRun.Counts,
        DagRun.Counts, hstate _ hsame]
      split_ifs with hparallel
      · have hchild := (unitOf_parallel hparallel).mp hunit
        rw [DagRun.ChildCounts, DagRun.ChildCounts, hkeeps _ hsame, hstate _ hsame,
          hcontrib owner howner hparallel hsame unit hchild]
      · rfl
  · intro group hgroup htype child hchild hcase
    rw [hwf] at hgroup
    by_cases hsame : group.id = step.id
    · obtain rfl := hids.step_eq hgroup hdeclared hsame
      exact hchildren htype child hchild hcase
    · rw [hkeeps _ hsame, hcontrib group hgroup htype hsame child hchild] at hcase
      have hhas : hasRows group = true := by simp [hasRows, htype]
      have hunit := (unitOf_parallel htype).mpr hchild
      exact (hrows group hgroup hhas hsame child hunit).mpr
        (hc.children group hgroup htype child hchild hcase)

end Counts

/-! ## Applied results -/

section Apply

variable {e : Engine} {r r' : DagRun} {rows rows' : List StepRun} {busy : List String}
  {nextRow : ℕ} {ctxErr : Option String} {wr : WorkerResult} {res : StepResult}

/-- Changing what one group keeps leaves the others alone. -/
theorem keeps_iff_of_update {p : Prop} [Decidable p] {id : String}
    {kept : Option (String → Option StepResult)}
    (hmemo : r'.parallelDone = if p then update r.parallelDone id kept else r.parallelDone)
    (hne : group ≠ id) (child : String) : r'.Keeps group child ↔ r.Keeps group child := by
  rw [DagRun.Keeps, DagRun.Keeps, DagRun.memo, DagRun.memo, hmemo]
  split
  · rw [update_of_ne hne]
  · rfl

/-- Applying a result drops what its group kept and leaves the other groups alone. -/
structure ClosesWindow (r r' : DagRun) (step : StepConfig) : Prop where
  wf : r'.wf = r.wf
  memo : r'.parallelDone =
    if step.type = .parallel then update r.parallelDone step.id none else r.parallelDone

section

variable (hclose : ClosesWindow r r' wr.step)

include hclose

theorem ClosesWindow.kept_of {done : String → Option StepResult}
    (hdone : r'.parallelDone group = some done) : r.parallelDone group = some done := by
  rw [hclose.memo] at hdone
  split at hdone
  · by_cases hsame : group = wr.step.id
    · rw [hsame, update_self] at hdone
      cases hdone
    · rwa [update_of_ne hsame] at hdone
  · exact hdone

theorem ClosesWindow.memo_of (hmemo : r'.memo group child = some res) :
    r.memo group child = some res := by
  obtain ⟨done, hdone, hres⟩ := bind_eq_some_iff.mp hmemo
  exact bind_eq_some_iff.mpr ⟨done, hclose.kept_of hdone, hres⟩

theorem ClosesWindow.keeps_of (hkeeps : r'.Keeps group child) : r.Keeps group child := by
  obtain ⟨res, hmemo, hsuccess⟩ := hkeeps
  exact ⟨res, hclose.memo_of hmemo, hsuccess⟩

theorem ClosesWindow.not_keeps (hparallel : wr.step.type = .parallel) (child : String) :
    ¬ r'.Keeps wr.step.id child := by
  rintro ⟨res, hmemo, -⟩
  rw [DagRun.memo, hclose.memo, if_pos hparallel, update_self] at hmemo
  cases hmemo

end

/-- Which contributions there are after a step passed. -/
theorem mergeContribs_isSome (r : DagRun) (wr : WorkerResult) (res : StepResult) (id : String) :
    (r.mergeContribs wr res id).isSome ↔ (r.contrib id).isSome ∨
      (if wr.step.type = .parallel then ∃ c ∈ wr.parallelContribs, c.stepID = id
        else id = wr.step.id) := by
  rw [mergeContribs]
  split
  · generalize wr.parallelContribs = contribs
    have hfold : ∀ contrib : String → Option MemoryStep,
        (contribs.foldl (fun (contrib : String → Option MemoryStep) c =>
          update contrib c.stepID (some c)) contrib id).isSome ↔
        (contrib id).isSome ∨ ∃ c ∈ contribs, c.stepID = id := by
      induction contribs with
      | nil => simp
      | cons c contribs ih =>
        intro contrib
        rw [foldl_cons, ih]
        by_cases hid : c.stepID = id
        · simp [hid]
        · have hne : id ≠ c.stepID := fun h => hid h.symm
          simp [update_of_ne hne, hid]
    exact hfold r.contrib
  · by_cases hid : id = wr.step.id
    · simp [hid]
    · simp [hid]

variable (hids : DistinctIDs r.wf) (hc : CountOk r rows (wr.step.id :: busy))
  (hdeclared : wr.step ∈ r.wf.steps) (hclose : ClosesWindow r r' wr.step)

include hids hc hdeclared hclose

theorem CountOk.passed (hresult : ResultOk e r.wf rows nextRow ctxErr wr)
    (hsuccess : wr.res.success = true) (hnone : ctxErr = none)
    (hagents : wr.step.type = .parallel → joinsAgents wr = true)
    (hstate : r'.state = update r.state wr.step.id (some .passed))
    (hcontrib : r'.contrib = r.mergeContribs wr res) : CountOk r' rows busy := by
  -- a child with a contribution of this result belongs to this group
  have hnew : ∀ group ∈ r.wf.steps, group.type = .parallel → ∀ child ∈ group.subSteps,
      (r'.contrib child.id).isSome → (r.contrib child.id).isSome ∨
        (group = wr.step ∧ ∃ c ∈ wr.parallelContribs, c.stepID = child.id) := by
    intro group hgroup htype child hchild hsome
    rw [hcontrib, mergeContribs_isSome] at hsome
    refine hsome.imp_right fun hcase => ?_
    have hunit := (unitOf_parallel htype).mpr hchild
    have hhas : hasRows group = true := by simp [hasRows, htype]
    split_ifs at hcase with hparallel
    · obtain ⟨c, hmem, hid⟩ := hcase
      obtain ⟨own, hown, hownID⟩ := hresult.contribs_of hparallel hsuccess hmem
      have hownUnit := (unitOf_parallel hparallel).mpr hown
      have heq := hids.unit_eq hgroup hhas hunit hdeclared hownUnit (hid.symm.trans hownID.symm)
      exact ⟨heq.1, c, hmem, hid⟩
    · exact absurd (hcase ▸ mem_order hdeclared) (hids.nested _ (mem_groupChildren hgroup htype hchild))
  refine hc.settle hids hdeclared hclose.wf (fun id hne => by rw [hstate, update_of_ne hne])
    (fun _ => keeps_iff_of_update hclose.memo) ?_ (fun _ _ _ _ _ _ => Iff.rfl) ?_ ?_
    fun group child res hmemo => hc.memos group child res (hclose.memo_of hmemo)
  · intro owner howner htype hne child hchild
    refine ⟨fun hsome => ?_, fun hsome => ?_⟩
    · rcases hnew owner howner htype child hchild hsome with hsome | ⟨heq, -⟩
      · exact hsome
      · exact absurd (congrArg StepConfig.id heq) hne
    · rw [hcontrib, mergeContribs_isSome]
      exact .inl hsome
  · intro hhas unit hunit
    rw [DagRun.Counts]
    split_ifs with hparallel
    · rw [UnitOf, hparallel] at hunit
      rw [hresult.joined hparallel hids hsuccess hnone (hagents hparallel) hunit,
        DagRun.ChildCounts, hstate, update_self, hcontrib, mergeContribs_isSome, if_pos hparallel]
      constructor
      · exact fun hjoined => .inr ⟨rfl, .inr hjoined⟩
      · rintro (hkept | ⟨-, hold | hjoined⟩)
        · exact absurd hkept (hclose.not_keeps hparallel unit.id)
        · exact (hresult.joined hparallel hids hsuccess hnone (hagents hparallel) hunit).mp
            (hc.children _ hdeclared hparallel unit hunit (.inr hold))
        · exact hjoined
    · have hself : unit = wr.step :=
        ((hunit.recorded hhas).resolve_left fun h => hparallel h.1).2
      rw [hstate, update_self, hself]
      exact iff_of_true ((hresult.single hhas hparallel).recorded hsuccess hnone) rfl
  · rintro htype child hchild (hkept | hsome)
    · exact absurd hkept (hclose.not_keeps htype child.id)
    · rcases hnew _ hdeclared htype child hchild hsome with hsome | ⟨-, hjoined⟩
      · exact hc.children _ hdeclared htype child hchild (.inr hsome)
      · exact (hresult.joined htype hids hsuccess hnone (hagents htype) hchild).mpr hjoined

theorem CountOk.failed (hst : st ≠ .passed)
    (hrows : rows' = rows ∨ (wr.step.type = .agent ∧ RowsWrite wr.step.id nextRow rows rows'))
    (hgone : hasRows wr.step = true → ∀ unit, UnitOf wr.step unit → unit.id ∉ doneIDs rows')
    (hstate : r'.state = update r.state wr.step.id (some st))
    (hcontrib : r'.contrib = r.contrib) : CountOk r' rows' busy := by
  have hother : ∀ owner ∈ r.wf.steps, hasRows owner = true → owner.id ≠ wr.step.id →
      ∀ unit, UnitOf owner unit → (unit.id ∈ doneIDs rows' ↔ unit.id ∈ doneIDs rows) := by
    intro owner howner hhas hne unit hunit
    rcases hrows with rfl | ⟨hagent, hwrite⟩
    · exact Iff.rfl
    · refine hwrite.mem_doneIDs fun hid => hne ?_
      have hself : UnitOf wr.step wr.step := by rw [UnitOf, hagent]
      exact congrArg StepConfig.id (hids.unit_eq howner hhas hunit hdeclared hself hid).1
  refine hc.settle hids hdeclared hclose.wf (fun id hne => by rw [hstate, update_of_ne hne])
    (fun _ => keeps_iff_of_update hclose.memo) (fun _ _ _ _ _ _ => by rw [hcontrib]) hother ?_ ?_
    fun group child res hmemo => hc.memos group child res (hclose.memo_of hmemo)
  · intro hhas unit hunit
    refine iff_of_false (hgone hhas unit hunit) ?_
    rw [DagRun.Counts, hstate, update_self]
    split_ifs with hparallel
    · rintro (hkept | ⟨hpassed, -⟩)
      · exact hclose.not_keeps hparallel unit.id hkept
      · rw [hstate, update_self, some.injEq] at hpassed
        exact hst hpassed
    · rw [some.injEq]
      exact hst
  · intro htype child hchild hcase
    have hrow := hc.children _ hdeclared htype child hchild
      (hcase.imp hclose.keeps_of fun h => hcontrib ▸ h)
    rcases hrows with rfl | ⟨hagent, -⟩
    · exact hrow
    · simp [htype] at hagent

end Apply

theorem Applied.closes {e : Engine} {s t : DriveState} (happlied : Applied e s wr t) :
    ClosesWindow s.run t.run wr.step := by
  have hmemo := closeWindow_parallelDone s.run wr.step
  cases happlied with
  | passed | failed => exact ⟨closeWindow_wf _ _, hmemo⟩
  | retried =>
    refine ⟨(retryStep_frame _ _ _).1.trans (closeWindow_wf _ _), ?_⟩
    rw [retryStep]
    split <;> exact hmemo

theorem TableOk.write {e : Engine} {rows' : List StepRun} {nextRow' : ℕ} {workers : List Worker}
    {resultCh : List WorkerResult} (hids : DistinctIDs wf)
    (htable : TableOk e wf rows nextRow ctxErr workers resultCh)
    (hworkers : ∀ w ∈ workers, w.Of wf) (hresults : ∀ wr ∈ resultCh, wr.step ∈ wf.steps)
    (howner : owner ∈ wf.steps) (hunit : UnitOf owner unit)
    (hwrite : RowsWrite unit.id nextRow rows rows') (hnext : nextRow ≤ nextRow')
    (hfresh : ∀ row ∈ rows', row.id < nextRow') (hother : ∀ w ∈ workers, w.step.id ≠ owner.id)
    (hotherResult : ∀ wr ∈ resultCh, wr.step.id ≠ owner.id) :
    TableOk e wf rows' nextRow' ctxErr workers resultCh := by
  refine ⟨hfresh, ?_, ?_⟩
  · intro w hw
    refine (htable.workers w hw).frame hwrite hnext ?_
    intro hhas u hu hid
    have heq := hids.unit_eq (hworkers w hw).declared hhas ((hworkers w hw).units u hu) howner hunit hid
    exact hother w hw (congrArg StepConfig.id heq.1)
  · intro wr hwr
    refine (htable.results wr hwr).frame hwrite hnext ?_
    intro hhas u hu hid
    have heq := hids.unit_eq (hresults wr hwr) hhas hu howner hunit hid
    exact hotherResult wr hwr (congrArg StepConfig.id heq.1)

theorem FlightOk.perm (hf : FlightOk state activated busy) (hperm : busy.Perm busy') :
    FlightOk state activated busy' :=
  ⟨hperm.nodup_iff.mp hf.nodup, fun id hid => hf.running id (hperm.mem_iff.mpr hid), hf.activated⟩

theorem CountOk.perm (hc : CountOk r rows busy) (hperm : busy.Perm busy') : CountOk r rows busy' :=
  ⟨fun owner howner hhas hfree =>
    hc.settled owner howner hhas fun h => hfree (hperm.mem_iff.mp h), hc.children, hc.memos⟩

theorem FlightOk.tail {id : String} (hf : FlightOk state activated (id :: busy)) :
    FlightOk state activated busy :=
  ⟨(nodup_cons.mp hf.nodup).2, fun other h => hf.running other (mem_cons_of_mem _ h), hf.activated⟩

section Dispatch

variable {e : Engine} {s : DriveState} {id : String} {ids : List String}

theorem busyIDs_of_held (hheld : s.phase.held = []) : s.busyIDs = s.inFlightIDs := by
  rw [busyIDs, hheld, nil_append]

/-- The loop goes on to a stage in which it holds no result. -/
theorem Ledger.move (hl : Ledger e s) (hfrom : s.phase.held = []) (hto : phase.held = [])
    (hphase : PhaseOk s.run s.rows phase) : Ledger e { s with phase := phase } := by
  have hbusy : busyIDs { s with phase := phase } = s.busyIDs := by
    rw [busyIDs_of_held hfrom]
    exact busyIDs_of_held hto
  refine ⟨hl.table, ?_, ?_, hphase⟩
  · rw [hbusy]
    exact hl.flight
  · rw [hbusy]
    exact hl.counts

/-- A child that its group kept from an earlier pass. -/
theorem UnitOk.replayed {w : Worker} (hparallel : w.step.type = .parallel) {child : StepConfig}
    {res : StepResult} (hpending : res.pending = false)
    (hrow : child.id ∈ doneIDs rows ↔ res.success = true) :
    UnitOk rows nextRow ctxErr w { step := child, phase := .finished res } where
  passed _ hdone := hrow.mp hdone
  recorded _ hpassed _ _ := hrow.mpr hpassed
  running := by simp
  settled res' hfinished _ := by
    rw [UnitPhase.finished.injEq] at hfinished
    rw [← hfinished]
    exact hpending
  keyed _ _ hagent := by
    simp [hparallel] at hagent
  keyless _ _ _ hgroup := by simp [Worker.isGroup, hparallel] at hgroup

theorem launch_ok (hc : CountOk r rows busy) {step : StepConfig} (hstep : step ∈ r.wf.steps)
    (hfree : step.id ∉ busy) (hstate : r.state step.id ≠ some .passed) :
    WorkerOk rows nextRow ctxErr (launch r step) := by
  have hsettled := fun hhas => hc.settled step hstep hhas hfree
  refine ⟨?_, ?_, ?_⟩
  · intro u hu
    have hw := launch_step r step
    by_cases hparallel : step.type = .parallel
    · simp only [launch, hparallel, List.mem_map] at hu
      obtain ⟨child, hchild, rfl⟩ := hu
      have hunit := (unitOf_parallel hparallel).mpr hchild
      have hrow := hsettled (by simp [hasRows, hparallel]) child hunit
      rw [DagRun.Counts, if_pos hparallel, DagRun.ChildCounts, DagRun.Keeps] at hrow
      rw [← memo]
      cases hmemo : r.memo step.id child.id with
      | some =>
        refine UnitOk.replayed (hw.symm ▸ hparallel) (hc.memos _ _ _ hmemo) ?_
        rw [hrow, hmemo]
        simp [hstate]
      | none =>
        refine UnitOk.waiting (fun _ => ?_) (.inr rfl)
        rw [hrow, hmemo]
        simp [hstate]
    · have hidle : u.phase = .idle ∨ u.phase = .spawned := by
        rw [launch] at hu
        split at hu
        · exact absurd ‹_› hparallel
        · split at hu
          · cases hu
          · obtain ⟨item, -, rfl⟩ := List.mem_map.mp hu
            exact .inl rfl
        · rw [mem_singleton] at hu
          exact .inr (hu ▸ rfl)
      refine UnitOk.waiting ?_ hidle
      rw [hw]
      intro hhas
      obtain ⟨hself, -⟩ := hasRows_unitOf hhas hparallel
      have hunit : u.step = step := by
        have hof := (launch_of r hstep).units u hu
        rw [hw] at hof
        rcases hof.recorded hhas with ⟨h, -⟩ | ⟨-, heq⟩
        · exact absurd h hparallel
        · exact heq
      rw [hunit, hsettled hhas step hself, DagRun.Counts, if_neg hparallel]
      exact hstate
  · rw [launch_step]
    intro htype
    simp only [launch, htype, List.map_map]
    conv_rhs => rw [← List.map_id step.subSteps]
    apply map_congr_left
    intro child _
    simp only [comp_apply]
    split <;> rfl
  · rw [launch_step]
    intro hparallel hforeach
    refine ⟨{ step := step, phase := .spawned }, ?_⟩
    rw [launch]
    split
    · exact absurd ‹_› hparallel
    · exact absurd ‹_› hforeach
    · rfl

section

variable (hf : FlightOk state activated busy)

include hf

theorem FlightOk.launch (hidle : state id ≠ some .running) (hactivated : activated id = true)
    (hperm : busy'.Perm (id :: busy)) :
    FlightOk (update state id (some .running)) activated busy' := by
  have hfree : id ∉ busy := fun hid => hidle (hf.running id hid)
  refine ⟨hperm.nodup_iff.mpr (nodup_cons.mpr ⟨hfree, hf.nodup⟩), ?_, ?_⟩
  · intro other hother
    rcases mem_cons.mp (hperm.mem_iff.mp hother) with rfl | hmem
    · exact update_self ..
    · have hne : other ≠ id := fun heq => hfree (heq ▸ hmem)
      rw [update_of_ne hne]
      exact hf.running other hmem
  · intro other hother
    by_cases hne : other = id
    · exact hne ▸ hactivated
    · rw [update_of_ne hne] at hother
      exact hf.activated other hother

omit hf in
/-- The steps still to be dispatched are left alone by a change of another one. -/
theorem PhaseOk.rest {r' : DagRun} (hphase : PhaseOk r rows (.dispatch (id :: ids)))
    (hstate : ∀ other, other ≠ id → (r'.state other = some .running → r.state other = some .running) ∧
      (r'.state other = some .passed → r.state other = some .passed))
    (hactivated : ∀ other, r.activated other = true → r'.activated other = true) :
    PhaseOk r' rows (.dispatch ids) := by
  obtain ⟨hnodup, hidle⟩ := hphase
  obtain ⟨hfresh, hnodup⟩ := nodup_cons.mp hnodup
  refine ⟨hnodup, ?_⟩
  intro other hother
  have hne : other ≠ id := fun heq => hfresh (heq ▸ hother)
  obtain ⟨hrunning, hpassed, hactive⟩ := hidle other (mem_cons_of_mem _ hother)
  exact ⟨fun h => hrunning ((hstate other hne).1 h), fun h => hpassed ((hstate other hne).2 h),
    hactivated other hactive⟩

omit hf in
/-- Marking a step running takes it out of what is settled. -/
theorem CountOk.launch (hc : CountOk r rows busy) (hperm : busy'.Perm (id :: busy)) :
    CountOk (r.setState id .running) rows busy' := by
  refine hc.change rfl rfl (fun _ => .inl rfl) ?_
  intro owner _ _ hfree
  rw [hperm.mem_iff, mem_cons, not_or] at hfree
  refine .inl ⟨hfree.2, ?_⟩
  rw [setState_of_ne r hfree.1]

theorem FlightOk.mono {activated' : String → Bool}
    (hactive : ∀ id, activated id = true → activated' id = true) : FlightOk state activated' busy :=
  ⟨hf.nodup, hf.running, fun id hid => hactive id (hf.activated id hid)⟩

theorem FlightOk.settle (hfree : id ∉ busy) (hst : st ≠ .running) :
    FlightOk (update state id (some st)) activated busy := by
  refine ⟨hf.nodup, ?_, ?_⟩
  · intro other hother
    have hne : other ≠ id := fun heq => hfree (heq ▸ hother)
    rw [update_of_ne hne]
    exact hf.running other hother
  · intro other hother
    have hchange : ChangesTo (fun st => st ≠ .running) state (update state id (some st)) :=
      ChangesTo.update state id hst
    exact hf.activated other (hchange.of_not_allowed (by simp) hother)

theorem FlightOk.skips {may : String → Prop} {state' : StateMap} {activated' : String → Bool}
    (hskips : Skips may state state') (hmay : ∀ id, may id → activated id = false)
    (hactivated : ∀ id, activated id = true → activated' id = true) :
    FlightOk state' activated' busy := by
  refine ⟨hf.nodup, fun id hid => ?_, fun id hrunning => ?_⟩
  · have hrunning := hf.running id hid
    rcases hskips id with hsame | ⟨-, hpending | hfree⟩
    · exact hsame.trans hrunning
    · simp [hrunning] at hpending
    · exact absurd (hf.activated id hrunning) (by simp [hmay id hfree])
  · exact hactivated id (hf.activated id (hskips.changes.of_not_allowed (by simp) hrunning))

end

theorem Ledger.routed (hids : DistinctIDs s.run.wf) (hl : Ledger e s) (hheld : s.phase.held = [])
    {step : StepConfig} (hstep : step ∈ s.run.wf.steps) (htype : step.type = .split)
    (hfree : step.id ∉ s.busyIDs)
    (hguard : ∀ b ∈ step.branches,
      s.run.activated b.goto = true ∨ clean s.rows (byID s.run.wf b.goto) = true)
    (chosen : List String) (hto : phase.held = [])
    (hphase : PhaseOk (s.run.routeSplit step chosen) s.rows phase) :
    Ledger e { s.began step with run := s.run.routeSplit step chosen, phase := phase } := by
  obtain ⟨state, hskips, heq⟩ := routeSplit_eq s.run step chosen
  have hbusy : busyIDs
      { s.began step with run := s.run.routeSplit step chosen, phase := phase } = s.busyIDs := by
    rw [busyIDs_of_held hheld]
    exact busyIDs_of_held hto
  have hstate : ∀ id, id ≠ step.id → state id = s.run.state id ∨ (state id = some .skipped ∧
      (s.run.state id = some .pending ∨
        ((∃ b ∈ step.branches, b.goto = id) ∧ s.run.activated id = false))) := by
    intro id hne
    have hcase := hskips id
    rwa [update_of_ne hne] at hcase
  refine ⟨?_, ?_, ?_, hphase⟩
  · rw [heq]
    exact hl.table
  · rw [hbusy, heq]
    have hst : Status.passed ≠ .running := by decide
    exact (hl.flight.settle hfree hst).skips hskips (fun _ h => h.2) fun id h => by simp [h]
  · rw [hbusy, heq]
    refine hl.counts.change rfl rfl (fun _ => .inl rfl) ?_
    intro owner howner hhas hfreeOwner
    have hne : owner.id ≠ step.id := by
      intro hsame
      rw [hids.step_eq howner hstep hsame, hasRows, htype] at hhas
      cases hhas
    change (_ ∧ (state owner.id = some .passed ↔ _)) ∨ (_ ∧ state owner.id ≠ some .passed)
    rcases hstate owner.id hne with hsame | ⟨hskipped, hpending | ⟨⟨b, hb, hgoto⟩, hinactive⟩⟩
    · exact .inl ⟨hfreeOwner, by rw [hsame]⟩
    · exact .inl ⟨hfreeOwner, by simp [hskipped, hpending]⟩
    · refine .inr ⟨?_, by simp [hskipped]⟩
      rcases hguard b hb with hactive | hclean
      · rw [hgoto, hinactive] at hactive
        cases hactive
      · rwa [hgoto, hids.byID_eq howner] at hclean

theorem Ledger.dispatched (hids : DistinctIDs s.run.wf) (hs : WellFormed s) (hl : Ledger e s)
    (hphase : s.phase = .dispatch (id :: ids))
    (hguard : (byID s.run.wf id).type = .split → ∀ b ∈ (byID s.run.wf id).branches,
      s.run.activated b.goto = true ∨ clean s.rows (byID s.run.wf b.goto) = true)
    {out : DriveState × Bool} (hout : Dispatched s (byID s.run.wf id) id out) :
    Ledger e { out.1 with phase := if out.2 then .check else .dispatch ids } := by
  have hid : id ∈ order s.run.wf := (cons_subset.mp (hs.picked _ hphase)).1
  have hstep := byID_mem hid
  have hstepID := byID_id hid
  have hbusy : s.busyIDs = s.inFlightIDs := busyIDs_of_held (by rw [hphase]; rfl)
  have hpicked : PhaseOk s.run s.rows (.dispatch (id :: ids)) := hphase ▸ hl.phase
  obtain ⟨hidle, hunpassed, hactive⟩ := hpicked.2 id mem_cons_self
  have hflight := hl.flight
  have hcounts := hl.counts
  rw [hbusy] at hflight hcounts
  have hfree : id ∉ s.inFlightIDs := fun h => hidle (hflight.running id h)
  have hrest : PhaseOk (s.run.setState id .running) s.rows (.dispatch ids) := by
    refine hpicked.rest (fun other hne => ?_) fun _ h => h
    rw [setState_of_ne _ hne]
    exact ⟨fun h => h, fun h => h⟩
  have hpush := push_inFlightIDs s hstepID
  have htable : ∀ {wr}, ResultOk e s.run.wf s.rows s.nextRow s.ctxErr wr →
      TableOk e s.run.wf s.rows s.nextRow s.ctxErr s.workers (s.resultCh ++ [wr]) := fun hok =>
    ⟨hl.table.fresh, hl.table.workers, Table.forall_insert hl.table.results hok⟩
  cases hout with
  | errored =>
    refine ⟨htable (.errored rfl rfl rfl ?_), hflight.launch hidle hactive (hpush _),
      hcounts.launch (hpush _), hrest⟩
    intro hhas hparallel hdone
    have hcounted := (hcounts.settled _ hstep hhas (hstepID.symm ▸ hfree) _
      (hasRows_unitOf hhas hparallel).1).mp hdone
    rw [DagRun.Counts, if_neg hparallel, hstepID] at hcounted
    exact hunpassed hcounted
  | asked htype =>
    exact ⟨htable (.asked htype rfl), hflight.launch hidle hactive (hpush _),
      hcounts.launch (hpush _), hrest⟩
  | condSkipped =>
    refine ⟨hl.table, hflight.settle hfree (by decide), ?_, ?_⟩
    · refine hcounts.change rfl rfl (fun _ => .inl rfl) ?_
      intro owner _ _ hfreeOwner
      refine .inl ⟨hfreeOwner, ?_⟩
      change update s.run.state id (some .condSkipped) owner.id = _ ↔ _
      by_cases hsame : owner.id = id
      · rw [hsame, update_self]
        exact iff_of_false (by simp) hunpassed
      · rw [update_of_ne hsame]
    · refine hpicked.rest (fun other hne => ?_) fun _ h => h
      change (update s.run.state id (some .condSkipped) other = _ → _) ∧
        (update s.run.state id (some .condSkipped) other = _ → _)
      rw [update_of_ne hne]
      exact ⟨fun h => h, fun h => h⟩
  | routed chosen htype =>
    refine hl.routed hids (by rw [hphase]; rfl) hstep htype (by rwa [hbusy, hstepID])
      (hguard htype) chosen rfl ?_
    obtain ⟨state, hskips, heq⟩ := routeSplit_eq s.run (byID s.run.wf id) chosen
    refine hpicked.rest (fun other hne => ?_) fun other hother => ?_
    · rw [heq]
      have hcase := hskips other
      rw [update_of_ne (hstepID.symm ▸ hne)] at hcase
      rcases hcase with hsame | ⟨hskipped, -⟩
      · exact ⟨fun h => hsame ▸ h, fun h => hsame ▸ h⟩
      · simp [hskipped]
    · rw [heq]
      simp [hother]
  | full => exact hl.move (by rw [hphase]; rfl) rfl trivial
  | spawned =>
    have hperm := spawn_inFlightIDs s hstepID
    refine ⟨⟨hl.table.fresh, Table.forall_insert hl.table.workers ?_, hl.table.results⟩,
      hflight.launch hidle hactive hperm, hcounts.launch hperm, hrest⟩
    exact launch_ok hcounts hstep (hstepID.symm ▸ hfree) (hstepID.symm ▸ hunpassed)

end Dispatch

section Loop

variable {e : Engine} {s t : DriveState}

theorem Ledger.reset (hids : DistinctIDs s.run.wf) (hl : Ledger e s) (hbusy : s.busyIDs = [])
    (hguard : ∀ id ∈ clearedContribs s.run.wf s.loopTarget, id ∉ doneIDs s.rows)
    (hnone : s.inFlightIDs = []) :
    Ledger e
      { s with
        run := s.run.resetLoop s.loopTarget
        history := .reset (resetSet s.run.wf s.loopTarget) :: s.history
        loopTarget := ""
        phase := .top } := by
  have hflight := hl.flight
  have hcounts := hl.counts
  rw [hbusy] at hflight hcounts
  refine ⟨hl.table, ?_, ?_, trivial⟩
  · change FlightOk _ _ ([] ++ s.inFlightIDs)
    rw [hnone]
    refine ⟨nodup_nil, by simp, ?_⟩
    intro id hrunning
    exact hflight.activated id
      ((resetLoop_changes s.run s.loopTarget).of_not_allowed (by simp) hrunning)
  · change CountOk _ _ ([] ++ s.inFlightIDs)
    rw [hnone]
    refine hcounts.change rfl rfl ?_ ?_
    · intro id
      by_cases hcleared : id ∈ clearedContribs s.run.wf s.loopTarget
      · exact .inr ⟨if_pos hcleared, hguard id hcleared⟩
      · exact .inl (if_neg hcleared)
    · intro owner howner hhas _
      change (_ ∧ ((if owner.id ∈ resetSet s.run.wf s.loopTarget then some .pending
          else s.run.state owner.id) = some .passed ↔ _)) ∨
        (_ ∧ (if owner.id ∈ resetSet s.run.wf s.loopTarget then some .pending
          else s.run.state owner.id) ≠ some .passed)
      by_cases hreset : owner.id ∈ resetSet s.run.wf s.loopTarget
      · refine .inr ⟨clean_iff.mpr ⟨?_, ?_⟩, by simp [hreset]⟩
        · exact hguard _ (mem_flatMap.mpr ⟨_, hreset, mem_cons_self⟩)
        · intro child hchild
          refine hguard _ (mem_flatMap.mpr ⟨_, hreset, mem_cons_of_mem _ ?_⟩)
          rw [hids.byID_eq howner]
          exact List.mem_map.mpr ⟨child, hchild, rfl⟩
      · exact .inl ⟨not_mem_nil, by simp [hreset]⟩

theorem Ledger.skipped (hl : Ledger e s) (hheld : s.phase.held = []) :
    Ledger e { s with run := (skipUnreachable s.run).1, phase := .top } := by
  have hskips := skipUnreachable_skips s.run
  have hbusy : busyIDs { s with run := (skipUnreachable s.run).1, phase := .top } =
      s.busyIDs := by
    rw [busyIDs_of_held hheld]
    rfl
  refine ⟨hl.table, ?_, ?_, trivial⟩
  · rw [hbusy]
    exact hl.flight.skips hskips (fun _ h => h.elim) fun _ h => h
  · rw [hbusy]
    refine hl.counts.change rfl rfl (fun _ => .inl rfl) ?_
    intro owner _ _ hfree
    refine .inl ⟨hfree, ?_⟩
    change (skipUnreachable s.run).1.state owner.id = _ ↔ _
    rcases hskips owner.id with hsame | ⟨hskipped, hpending | hno⟩
    · rw [hsame]
    · simp [hskipped, hpending]
    · exact hno.elim

theorem Ledger.quiesced (hids : DistinctIDs s.run.wf) (hs : WellFormed s) (hl : Ledger e s)
    (hphase : s.phase = .check) (hnone : s.inFlight = 0)
    (hguard : s.run.stopped = false → s.termFail = false → s.loopTarget ≠ "" →
      ∀ id ∈ clearedContribs s.run.wf s.loopTarget, id ∉ doneIDs s.rows)
    (hstep : Quiesced s t) : Ledger e t := by
  have hheld : s.phase.held = [] := by rw [hphase]; rfl
  cases hstep with
  | stopped | failed | again | ended => exact hl.move hheld rfl trivial
  | reset hstopped hfail hloop =>
    have hflying := hs.inFlightIDs_eq_nil hnone
    refine hl.reset hids ?_ (hguard hstopped hfail hloop) hflying
    rw [busyIDs_of_held hheld, hflying]
  | skipped => exact hl.skipped hheld

theorem CountOk.dropped {step : StepConfig} (hids : DistinctIDs r.wf)
    (hc : CountOk r rows (step.id :: busy)) (hdeclared : step ∈ r.wf.steps)
    (hstate : r.state step.id = some .running) (hclean : clean rows step = true) :
    CountOk r rows busy := by
  refine hc.change rfl rfl (fun _ => .inl rfl) ?_
  intro owner howner _ hfree
  by_cases hsame : owner.id = step.id
  · rw [hids.step_eq howner hdeclared hsame]
    exact .inr ⟨hclean, by simp [hstate]⟩
  · exact .inl ⟨by simp [hsame, hfree], Iff.rfl⟩

theorem recorded_rows (hresult : ResultOk e s.run.wf s.rows s.nextRow s.ctxErr wr)
    (hguard : clean s.rows wr.step = true ∨ (wr.step.type = .agent ∧ (gated e s wr).2 = true)) :
    ((recorded e s wr).rows = s.rows ∨ (wr.step.type = .agent ∧
        RowsWrite wr.step.id s.nextRow s.rows (recorded e s wr).rows)) ∧
      ((recorded e s wr).rows.map StepRun.id = s.rows.map StepRun.id) ∧
      (hasRows wr.step = true → ∀ unit, UnitOf wr.step unit →
        unit.id ∉ doneIDs (recorded e s wr).rows) := by
  have hrows : (recorded e s wr).rows = if (gated e s wr).2 then
      markStepRunFailed s.rows (gated e s wr).1.stepRunID (gated e s wr).1.output else s.rows := rfl
  by_cases hagent : wr.step.type = .agent
  · have hhas : hasRows wr.step = true := by simp [hasRows, hagent]
    have hunit : ∀ unit, UnitOf wr.step unit → unit = wr.step := by
      intro unit hunit
      rwa [UnitOf, hagent] at hunit
    rw [hrows]
    split_ifs with hmarks
    · obtain ⟨-, hsuccess, hkey⟩ := gated_marks hmarks
      obtain ⟨n, hn, hown⟩ := (hresult.single hhas (by simp [hagent])).keyed hagent hsuccess
      rw [hkey, hn]
      refine ⟨.inr ⟨hagent, markStepRunFailed_write ?_⟩, markStepRunFailed_keys _ _ _, ?_⟩
      · intro m hm
        rw [← some.inj hm]
        exact hown.belong
      · intro _ unit hof
        rw [hunit unit hof]
        exact not_mem_doneIDs_mark hown.only
    · refine ⟨.inl rfl, rfl, fun _ unit hof => ?_⟩
      exact clean_unit (hguard.resolve_right fun h => hmarks h.2) hhas hof
  · have hkeyless := hresult.keyless hagent
    have hsame : (recorded e s wr).rows = s.rows := by
      rw [hrows]
      split_ifs with hmarks
      · rw [(gated_marks hmarks).2.2, hkeyless]
        rfl
      · rfl
    rw [hsame]
    exact ⟨.inl rfl, rfl, fun hhas unit hof =>
      clean_unit (hguard.resolve_right fun h => hagent h.1) hhas hof⟩

section Receive

variable {wr : WorkerResult} {rest : List WorkerResult}

/-- The loop has taken the result `wr` off the channel and holds no other. -/
structure InHand (e : Engine) (s : DriveState) (wr : WorkerResult) : Prop where
  table : TableOk e s.run.wf s.rows s.nextRow s.ctxErr s.workers s.resultCh
  flight : FlightOk s.run.state s.run.activated (wr.step.id :: s.inFlightIDs)
  counts : CountOk s.run s.rows (wr.step.id :: s.inFlightIDs)
  result : ResultOk e s.run.wf s.rows s.nextRow s.ctxErr wr
  declared : wr.step ∈ s.run.wf.steps
  workers : ∀ w ∈ s.workers, w.Of s.run.wf
  results : ∀ wr' ∈ s.resultCh, wr'.step ∈ s.run.wf.steps

theorem Ledger.take (hs : WellFormed s) (hl : Ledger e s) (hphase : s.phase = .recv)
    (hresult : s.resultCh = wr :: rest) : InHand e (s.take rest) wr := by
  have hperm := take_inFlightIDs hresult
  rw [← busyIDs_of_held (s := s) (by rw [hphase]; rfl)] at hperm
  have hmem : wr ∈ s.resultCh := by simp [hresult]
  have hrest : ∀ wr' ∈ rest, wr' ∈ s.resultCh := fun wr' h => by simp [hresult, h]
  exact
    { table := ⟨hl.table.fresh, hl.table.workers, fun wr' h => hl.table.results wr' (hrest wr' h)⟩
      flight := hl.flight.perm hperm
      counts := hl.counts.perm hperm
      result := hl.table.results wr hmem
      declared := hs.results wr hmem
      workers := hs.workers
      results := fun wr' h => hs.results wr' (hrest wr' h) }

theorem InHand.free (hh : InHand e s wr) : wr.step.id ∉ s.inFlightIDs :=
  (nodup_cons.mp hh.flight.nodup).1

variable (hids : DistinctIDs s.run.wf)

include hids

/-- A result that fails: the step is free again, and nothing of it counts. -/
theorem InHand.failed (hh : InHand e s wr)
    (hguard : clean s.rows wr.step = true ∨ (wr.step.type = .agent ∧ (gated e s wr).2 = true))
    (happlied : Applied e s wr t) (hst : st ≠ .passed ∧ st ≠ .running)
    (hactivated : t.run.activated = s.run.activated) (hcontrib : t.run.contrib = s.run.contrib)
    (hstate : t.run.state = update s.run.state wr.step.id (some st)) : Ledger e t := by
  obtain ⟨hwrite, hkeys, hgone⟩ := recorded_rows hh.result hguard
  have hclose := happlied.closes
  obtain ⟨hwf, -⟩ := happlied.frame
  obtain ⟨_, _, _, rfl⟩ := happlied.eq
  refine ⟨?_, ?_, ?_, trivial⟩
  · rw [hwf]
    rcases hwrite with hsame | ⟨hagent, hwrite⟩
    · rw [hsame]
      exact hh.table
    · have hself : UnitOf wr.step wr.step := by rw [UnitOf, hagent]
      refine hh.table.write hids hh.workers hh.results hh.declared hself hwrite le_rfl
        (fresh_of_keys hkeys hh.table.fresh) ?_ ?_
      · exact fun w hw hid => hh.free (hid ▸ mem_append_left _ (List.mem_map.mpr ⟨w, hw, rfl⟩))
      · exact fun wr' hwr' hid =>
          hh.free (hid ▸ mem_append_right _ (List.mem_map.mpr ⟨wr', hwr', rfl⟩))
  · rw [hstate, hactivated]
    exact hh.flight.tail.settle hh.free hst.2
  · exact hh.counts.failed hids hh.declared hclose hst.1 hwrite hgone hstate hcontrib

theorem InHand.applied (hh : InHand e s wr)
    (hpassed : (gated e s wr).1.success = true → wr.step.type = .parallel → joinsAgents wr = true)
    (hfailed : (gated e s wr).1.success = false →
      clean s.rows wr.step = true ∨ (wr.step.type = .agent ∧ (gated e s wr).2 = true))
    (happlied : Applied e s wr t) : Ledger e t := by
  cases happlied.effect with
  | passed hsuccess hstate hcontrib hactivated =>
    obtain ⟨hnone, hreported, hgated⟩ := gated_success hsuccess
    have hsame : (recorded e s wr).rows = s.rows := by simp [recorded, hgated]
    have hst : Status.passed ≠ .running := by decide
    have hclose := happlied.closes
    obtain ⟨hwf, -⟩ := happlied.frame
    obtain ⟨_, _, _, rfl⟩ := happlied.eq
    refine ⟨?_, ?_, ?_, trivial⟩
    · rw [hwf, hsame]
      exact hh.table
    · rw [hstate]
      exact (hh.flight.tail.settle hh.free hst).mono fun id h => by rw [hactivated, h, Bool.true_or]
    · rw [hsame] at hclose hstate hcontrib ⊢
      exact hh.counts.passed hids hh.declared hclose hh.result hreported hnone
        (hpassed hsuccess) hstate hcontrib
  | refused st hst hsuccess hstate hcontrib hactivated =>
    have hidle : st ≠ .passed ∧ st ≠ .running := by
      rcases hst with rfl | rfl <;> decide
    exact hh.failed hids (hfailed hsuccess) happlied hidle hactivated hcontrib hstate

theorem Ledger.received (hs : WellFormed s) (hl : Ledger e s) (hphase : s.phase = .recv)
    (hresult : s.resultCh = wr :: rest) (hguard : endsRows e s wr rest = true)
    (hstep : Received e (s.take rest) wr t) : Ledger e t := by
  have hh := hl.take hs hphase hresult
  rw [endsRows] at hguard
  cases hstep with
  | dropped hstopped =>
    have hstopped : s.run.stopped = true := hstopped
    rw [if_pos hstopped] at hguard
    have hrunning := hh.flight.running _ mem_cons_self
    exact ⟨hh.table, hh.flight.tail, hh.counts.dropped hids hh.declared hrunning hguard, trivial⟩
  | parking hstopped hparks =>
    have hstopped : s.run.stopped = false := hstopped
    rw [if_neg (by simp [hstopped]), if_pos hparks] at hguard
    refine ⟨hh.table, hh.flight, hh.counts, hparks, ?_⟩
    intro hparallel
    have hpending : wr.res.pending = true := by
      rcases parks_cases hparks with h | h | h
      · simp [hparallel] at h
      · exact h.2
      · exact h.2
    refine ⟨?_, fun child res hdone => hh.result.kept_pending hparallel hpending hdone⟩
    intro child hchild
    have hkeeps := (Bool.or_eq_true_iff.mp hguard).resolve_left (by simp [hparallel])
    have hcase := List.all_eq_true.mp hkeeps child hchild
    simp only [Bool.or_eq_true, Bool.and_eq_true, decide_eq_true_eq, isNone_iff_eq_none,
      Bool.not_eq_true'] at hcase
    exact hh.result.kept hparallel hids hpending hchild hcase
  | applied hstopped hparks t happlied =>
    have hstopped : s.run.stopped = false := hstopped
    rw [if_neg (by simp [hstopped]), if_neg (by simp [hparks])] at hguard
    refine hh.applied (s := s.take rest) hids ?_ ?_ happlied
    · intro hsuccess hparallel
      rw [if_pos hsuccess] at hguard
      exact (Bool.or_eq_true_iff.mp hguard).resolve_left (by simp [hparallel])
    · intro hsuccess
      rw [if_neg (by simp [hsuccess]), Bool.or_eq_true, Bool.and_eq_true, decide_eq_true_eq] at hguard
      exact hguard

theorem Ledger.discarded (hs : WellFormed s) (hl : Ledger e s) {dropped : WorkerResult}
    (hresult : s.resultCh = dropped :: rest) (hguard : clean s.rows dropped.step = true) :
    Ledger e { s.take rest with lost := .result dropped :: s.lost } := by
  have hperm : s.busyIDs.Perm (dropped.step.id :: (s.take rest).busyIDs) := by
    rw [busyIDs]
    exact ((take_inFlightIDs hresult).append_left _).trans perm_middle
  have hmem : dropped ∈ s.resultCh := by simp [hresult]
  have hflight := hl.flight.perm hperm
  have hrunning := hflight.running _ mem_cons_self
  refine ⟨⟨hl.table.fresh, hl.table.workers, ?_⟩, hflight.tail,
    (hl.counts.perm hperm).dropped hids (hs.results _ hmem) hrunning hguard, hl.phase⟩
  exact fun wr' h => hl.table.results wr' (hresult ▸ mem_cons_of_mem _ h)

omit hids in
theorem CountOk.parked (hids : DistinctIDs r.wf) (hc : CountOk r rows [wr.step.id]) (now : ℕ)
    (hdeclared : wr.step ∈ r.wf.steps) (hparks : PhaseOk r rows (.drain wr)) :
    CountOk (r.enterPark now wr) rows [] := by
  obtain ⟨_, _, _, hpark⟩ := enterPark_eq r now wr
  have hmemo : (r.enterPark now wr).parallelDone =
      if wr.step.type = .parallel then update r.parallelDone wr.step.id (some wr.parallel.done)
      else r.parallelDone := by
    rw [hpark]
  obtain ⟨hparks, hkept⟩ := hparks
  have hown : wr.step.type = .parallel → ∀ child,
      (r.enterPark now wr).memo wr.step.id child = wr.parallel.done child := by
    intro hparallel child
    rw [memo, hmemo, if_pos hparallel, update_self, bind_some]
  refine hc.settle hids hdeclared (by rw [hpark]) (fun id hne => ?_)
    (fun _ => keeps_iff_of_update hmemo) (fun _ _ _ _ _ _ => by rw [hpark])
    (fun _ _ _ _ _ _ => Iff.rfl) ?_ ?_ ?_
  · rw [hpark]
    exact update_of_ne hne ..
  · intro hhas unit hunit
    have hparallel : wr.step.type = .parallel := by
      simp only [hasRows, Bool.or_eq_true, decide_eq_true_eq] at hhas
      rcases parks_cases hparks with h | ⟨h, -⟩ | ⟨h, -⟩
      · simp [h] at hhas
      · exact h
      · simp [h] at hhas
    rw [UnitOf, hparallel] at hunit
    rw [(hkept hparallel).1 unit hunit, DagRun.Counts, if_pos hparallel, DagRun.ChildCounts,
      DagRun.Keeps, hown hparallel, hpark]
    simp
  · rintro hparallel child hchild (hkeep | hsome)
    · rw [DagRun.Keeps, hown hparallel] at hkeep
      exact ((hkept hparallel).1 child hchild).mpr hkeep
    · rw [hpark] at hsome
      exact hc.children _ hdeclared hparallel child hchild (.inr hsome)
  · intro group child res hres
    by_cases hparallel : wr.step.type = .parallel
    · by_cases hsame : group = wr.step.id
      · subst hsame
        rw [hown hparallel] at hres
        exact (hkept hparallel).2 child res hres
      · rw [memo, hmemo, if_pos hparallel, update_of_ne hsame] at hres
        exact hc.memos group child res hres
    · rw [memo, hmemo, if_neg hparallel] at hres
      exact hc.memos group child res hres

theorem Ledger.parked (hs : WellFormed s) (hl : Ledger e s) (now : ℕ) (hphase : s.phase = .drain wr)
    (hnone : s.inFlight = 0) : Ledger e (s.park now wr) := by
  obtain ⟨_, _, _, hpark⟩ := enterPark_eq s.run now wr
  have hdeclared := hs.draining wr hphase
  have hempty := hs.inFlightIDs_eq_nil hnone
  have hbusy : s.busyIDs = [wr.step.id] := by
    rw [busyIDs, hphase, hempty]
    rfl
  have hbusy' : (s.park now wr).busyIDs = [] := hempty
  have hdrain : PhaseOk s.run s.rows (.drain wr) := hphase ▸ hl.phase
  have hflight := hl.flight
  have hcounts := hl.counts
  rw [hbusy] at hflight hcounts
  have hcounts := hcounts.parked hids now hdeclared hdrain
  rw [← hbusy'] at hcounts
  rw [park, hpark] at hbusy' hcounts ⊢
  refine ⟨hl.table, ?_, hcounts, wr.step, hdeclared, rfl, update_self .., ?_⟩
  · rw [hbusy']
    exact hflight.tail.settle not_mem_nil (by decide)
  · rcases parks_cases hdrain.1 with h | ⟨h, -⟩ | ⟨h, -⟩ <;> simp [h]

end Receive

end Loop

/-! ## Steps of workers -/

section Work

variable {e : Engine} {s t : DriveState} {w : Worker} {u : UnitRun} {index unit : ℕ}
  {rows rows' : List StepRun} {nextRow nextRow' : ℕ} {ctxErr : Option String}

theorem WorkerOk.setUnit (hids : DistinctIDs wf) (hof : w.Of wf)
    (hok : WorkerOk rows nextRow ctxErr w) (hunit : w.units[unit]? = some u)
    (hwrite : RowsWrite u.step.id nextRow rows rows') (hnext : nextRow ≤ nextRow')
    {phase : UnitPhase} (hnew : UnitOk rows' nextRow' ctxErr w { u with phase := phase }) :
    WorkerOk rows' nextRow' ctxErr (w.setUnit unit phase) := by
  refine ⟨?_, ?_, ?_⟩
  · intro u' hu'
    rcases mem_setUnit hunit hu' with rfl | ⟨i, hsame, hold⟩
    · exact ⟨hnew.passed, hnew.recorded, hnew.running, hnew.settled, hnew.keyed, hnew.keyless⟩
    · have hne : hasRows w.step = true → u'.step.id ≠ u.step.id := by
        intro hhas hid
        by_cases hparallel : w.step.type = .parallel
        · exact hsame (Table.index_of_key (hok.units_nodup hids hof hparallel) hold hunit hid)
        · have hforeach : w.step.type ≠ .foreach := fun h => by simp [hasRows, h] at hhas
          obtain ⟨only, honly⟩ := hok.single hparallel hforeach
          obtain ⟨hlt, -⟩ := List.getElem?_eq_some_iff.mp hunit
          obtain ⟨hlt', -⟩ := List.getElem?_eq_some_iff.mp hold
          rw [honly, length_singleton] at hlt hlt'
          omega
      have hframed := (hok.units u' (mem_of_getElem? hold)).frame hwrite hnext hne
      exact ⟨hframed.passed, hframed.recorded, hframed.running, hframed.settled, hframed.keyed,
        hframed.keyless⟩
  · intro hparallel
    exact (setUnit_steps w unit phase).trans (hok.group hparallel)
  · intro hparallel hforeach
    obtain ⟨only, honly⟩ := hok.single hparallel hforeach
    have hlength : (w.setUnit unit phase).units.length = 1 := by
      simp [Worker.setUnit, honly]
    exact length_eq_one_iff.mp hlength

theorem CountOk.write (hids : DistinctIDs r.wf) (hc : CountOk r rows busy)
    (howner : owner ∈ r.wf.steps) (hown : UnitOf owner own) (hbusy : owner.id ∈ busy)
    (hnot : hasRows owner = true → own.id ∉ doneIDs rows)
    (hwrite : RowsWrite own.id nextRow rows rows') : CountOk r rows' busy := by
  refine ⟨?_, ?_, hc.memos⟩
  · intro other hother hhas hfree part hpart
    rw [hwrite.mem_doneIDs, hc.settled other hother hhas hfree part hpart]
    intro hid
    exact hfree ((hids.unit_eq hother hhas hpart howner hown hid).1 ▸ hbusy)
  · intro group hgroup hparallel child hchild hcase
    have hrow := hc.children group hgroup hparallel child hchild hcase
    refine (hwrite.mem_doneIDs fun hid => ?_).mpr hrow
    have hhas : hasRows group = true := by simp [hasRows, hparallel]
    have hpart := (unitOf_parallel hparallel).mpr hchild
    obtain ⟨rfl, rfl⟩ := hids.unit_eq hgroup hhas hpart howner hown hid
    exact hnot hhas hrow

theorem PhaseOk.write (hids : DistinctIDs r.wf) (hphase : PhaseOk r rows phase)
    (howner : owner ∈ r.wf.steps) (hown : UnitOf owner own)
    (hwrite : RowsWrite own.id nextRow rows rows')
    (hheld : ∀ wr, phase = .drain wr → wr.step ∈ r.wf.steps ∧ wr.step.id ≠ owner.id) :
    PhaseOk r rows' phase := by
  cases phase with
  | drain wr =>
    obtain ⟨hparks, hkept⟩ := hphase
    obtain ⟨hdeclared, hne⟩ := hheld wr rfl
    refine ⟨hparks, fun hparallel => ⟨?_, (hkept hparallel).2⟩⟩
    intro child hchild
    rw [hwrite.mem_doneIDs, (hkept hparallel).1 child hchild]
    intro hid
    have hhas : hasRows wr.step = true := by simp [hasRows, hparallel]
    have hpart := (unitOf_parallel hparallel).mpr hchild
    exact hne (congrArg StepConfig.id (hids.unit_eq hdeclared hhas hpart howner hown hid).1)
  | top | check | recv | ended => trivial
  | dispatch | parked => exact hphase

theorem Ledger.unit_moved (hids : DistinctIDs s.run.wf) (hs : WellFormed s) (hl : Ledger e s)
    (hw : s.workers[index]? = some w) (hunit : w.units[unit]? = some u)
    (hnot : hasRows w.step = true → u.step.id ∉ doneIDs s.rows) {phase : UnitPhase}
    {rows : List StepRun} {nextRow : ℕ} {history : List Mark}
    (heq : t = { s with
      workers := s.workers.set index (w.setUnit unit phase)
      rows := rows, nextRow := nextRow, history := history })
    (hperm : t.inFlightIDs.Perm s.inFlightIDs) (htable : TableStep u.step.id s t)
    (hnew : UnitOk t.rows t.nextRow t.ctxErr w { u with phase := phase }) : Ledger e t := by
  subst heq
  have hmem : w ∈ s.workers := mem_of_getElem? hw
  have hof := hs.workers w hmem
  have hunitOf := hof.units u (mem_of_getElem? hunit)
  have hflying : w.step.id ∈ s.inFlightIDs := mem_append_left _ (List.mem_map.mpr ⟨w, hmem, rfl⟩)
  have hbusyMem : w.step.id ∈ s.busyIDs := mem_append_right _ hflying
  have hnodup : s.inFlightIDs.Nodup := (nodup_append.mp hl.flight.nodup).2.1
  have hbusy := hperm.symm.append_left s.phase.held
  refine ⟨⟨htable.fresh hl.table.fresh, ?_, ?_⟩, hl.flight.perm hbusy,
    (hl.counts.write hids hof.declared hunitOf hbusyMem hnot htable.write).perm hbusy, ?_⟩
  · intro w' hw'
    rcases Table.mem_set hw' with rfl | ⟨i, hsame, hi⟩
    · exact (hl.table.workers w hmem).setUnit hids hof hunit htable.write htable.next hnew
    · refine (hl.table.workers w' (mem_of_getElem? hi)).frame htable.write htable.next ?_
      intro hhas u' hu' hid
      have hof' := hs.workers w' (mem_of_getElem? hi)
      have heq := hids.unit_eq hof'.declared hhas (hof'.units u' hu') hof.declared hunitOf hid
      exact hsame (Table.index_of_key (nodup_append.mp hnodup).1 hi hw (by rw [heq.1]))
  · intro wr hwr
    refine (hl.table.results wr hwr).frame htable.write htable.next ?_
    intro hhas part hpart hid
    have heq := hids.unit_eq (hs.results wr hwr) hhas hpart hof.declared hunitOf hid
    have hdisjoint := (nodup_append.mp hnodup).2.2
    exact hdisjoint _ (List.mem_map.mpr ⟨w, hmem, rfl⟩) _ (List.mem_map.mpr ⟨wr, hwr, rfl⟩)
      (congrArg StepConfig.id heq.1).symm
  · refine hl.phase.write hids hof.declared hunitOf htable.write ?_
    intro wr hdrain
    refine ⟨hs.draining wr hdrain, fun hid => ?_⟩
    have hheld := hl.flight.nodup
    rw [busyIDs, hdrain] at hheld
    exact (nodup_cons.mp hheld).1 (hid ▸ hflying)

theorem Ledger.worked (hids : DistinctIDs s.run.wf) (hs : WellFormed s) (hl : Ledger e s)
    {act : WorkerAct} (hw : s.workers[index]? = some w) (hstep : WorkerStepped e s index w act t) :
    Ledger e t := by
  have hmem : w ∈ s.workers := mem_of_getElem? hw
  have hof := hs.workers w hmem
  have hok := hl.table.workers w hmem
  have hperm := workerStepped_inFlightIDs hw hstep
  have hopen : ∀ {unit : ℕ} {u : UnitRun}, w.units[unit]? = some u → u.hasPassed = false →
      hasRows w.step = true → u.step.id ∉ doneIDs s.rows :=
    fun hunit hpassed hhas => (hok.units _ (mem_of_getElem? hunit)).not_done hhas hpassed
  cases hstep with
  | spawn unit u hunit hphase =>
    have hnot := hopen hunit (by simp [UnitRun.hasPassed, hphase])
    exact hl.unit_moved hids hs hw hunit hnot rfl hperm
      ⟨RowsWrite.refl _ _ _, le_rfl, rfl, id⟩ (UnitOk.waiting hnot (.inr rfl))
  | start unit u hunit hphase =>
    have hnot := hopen hunit (by simp [UnitRun.hasPassed, hphase])
    obtain ⟨rows, nextRow, history, heq⟩ := startUnit_eq s w u
    have htable := startUnit_table s w u
    exact hl.unit_moved hids hs hw hunit hnot (by rw [heq, setUnit]) hperm
      ⟨htable.write, htable.next, htable.ctxErr, htable.fresh⟩ (UnitOk.started hl.table.fresh hnot)
  | finish unit u row res hunit hphase =>
    have hunitMem := mem_of_getElem? hunit
    have huok := hok.units u hunitMem
    have hnot := hopen hunit (by simp [UnitRun.hasPassed, hphase])
    obtain ⟨rows, heq⟩ := finishUnit_eq s w u row res
    obtain ⟨-, hrowsOf, -⟩ := huok.running row hphase
    have htable : TableStep u.step.id s (s.finishUnit w u row res).1 := finishUnit_table hrowsOf
    exact hl.unit_moved hids hs hw hunit hnot (by rw [heq, setUnit]) hperm
      ⟨htable.write, htable.next, htable.ctxErr, htable.fresh⟩
      (huok.ended hphase (hof.units u hunitMem))
  | deliver hdeliver =>
    have hbusy : s.busyIDs.Perm (busyIDs { s with
        workers := s.workers.eraseIdx index
        resultCh := s.resultCh ++ [w.result e s.run.cell] }) := hperm.symm.append_left _
    refine ⟨⟨hl.table.fresh, ?_, ?_⟩, hl.flight.perm hbusy, hl.counts.perm hbusy, hl.phase⟩
    · exact fun w' hw' => hl.table.workers w' (mem_of_mem_eraseIdx hw')
    · exact Table.forall_insert hl.table.results (.worked w s.run.cell hof hok hdeliver rfl)

end Work

end Apiary.Workflow
