import Apiary.Workflow.Ledger

/-!
# What a restart finds

Whatever stops the daemon, the next one rebuilds each run from its rows.  Along every
run whose steps keep the rows in step, the rebuilt run counts the same agent and
sub-workflow steps as passed, and keeps the same children of groups, as the live run
did.
-/

namespace Apiary.Workflow

open Config List Option DagRun Machine Function DriveState

variable {s : DriveState} {owner : StepConfig} {rows : List StepRun} {nextRow : ℕ}
  {wf : WorkflowConfig}

/-! ## The rebuilt run -/

/-- The run that a resume or a rehydration rebuilds from the rows. -/
def DriveState.restored (s : DriveState) : DagRun :=
  restoreCachedSteps (initDAG s.run.instID s.run.wf s.run.cell [] fun _ => none) s.rows

/-- The restored run counts the units of `owner` as the live run does. -/
def RestoresAs (s : DriveState) (owner : StepConfig) : Prop :=
  if owner.type = .parallel then
    ∀ child ∈ owner.subSteps,
      s.restored.Keeps owner.id child.id ↔ s.run.ChildCounts owner.id child.id
  else s.restored.state owner.id = some .passed ↔ s.run.state owner.id = some .passed

/-- A unit of the step has passed and the loop has not applied the result yet. -/
def DriveState.unapplied (s : DriveState) (id : String) : Bool :=
  (s.workers.any fun w => w.step.id = id && w.units.any UnitRun.hasPassed) ||
    (s.resultCh.any fun wr => wr.step.id = id) ||
    match s.phase with
    | .drain wr => wr.step.id = id
    | _ => false

/-- The condition on a step under which the rows follow the run. -/
def followsRows (e : Engine) (s : DriveState) : Event → Bool
  | .sched _ =>
    match s.phase, s.resultCh with
    | .recv, wr :: rest => endsRows e s wr rest
    | .drain _, dropped :: _ => clean s.rows dropped.step
    | .check, _ =>
      s.inFlight ≠ 0 || s.run.stopped || s.termFail || s.loopTarget = "" ||
        (clearedContribs s.run.wf s.loopTarget).all fun id => id ∉ doneIDs s.rows
    | .dispatch (id :: _), _ =>
      (byID s.run.wf id).type ≠ .split || (byID s.run.wf id).branches.all fun b =>
        s.run.activated b.goto || clean s.rows (byID s.run.wf b.goto)
    | _, _ => true
  | _ => true

section Rebuilt

variable (instID : String) (wf : WorkflowConfig) (cell : SourceItem) (rows : List StepRun)

theorem rebuilt_wf :
    (restoreCachedSteps (initDAG instID wf cell [] fun _ => none) rows).wf = wf :=
  (restoreCachedSteps_restores rows (initDAG instID wf cell [] fun _ => none)).wf

theorem rebuilt_state_iff (id : String) :
    (restoreCachedSteps (initDAG instID wf cell [] fun _ => none) rows).state id = some .passed ↔
      id ∈ doneIDs rows ∧ restorable wf id := by
  have hnot : (initDAG instID wf cell [] fun _ => none).state id ≠ some .passed := by
    rw [initDAG]
    dsimp only
    split <;> simp
  rw [restored_state]
  exact or_iff_right hnot

theorem rebuilt_keeps_iff (group child : String) :
    (restoreCachedSteps (initDAG instID wf cell [] fun _ => none) rows).Keeps group child ↔
      child ∈ doneIDs rows ∧ restorableChild wf group child := by
  have hnot : ¬ (initDAG instID wf cell [] fun _ => none).Keeps group child := by
    rintro ⟨res, hmemo, -⟩
    cases hmemo
  rw [restored_keeps]
  exact or_iff_right hnot

end Rebuilt

/-- Restoring counts a unit if and only if it has a done row. -/
theorem restoresAs_of_rows (hids : DistinctIDs s.run.wf) (howner : owner ∈ s.run.wf.steps)
    (hhas : hasRows owner = true)
    (hrows : ∀ unit, UnitOf owner unit → (unit.id ∈ doneIDs s.rows ↔ s.run.Counts owner unit)) :
    RestoresAs s owner := by
  rw [RestoresAs]
  split_ifs with htype
  · intro child hchild
    have hunit := (unitOf_parallel htype).mpr hchild
    have hrow := hrows child hunit
    rw [DagRun.Counts, if_pos htype] at hrow
    rw [restored, rebuilt_keeps_iff, ← hrow]
    exact and_iff_left (hids.restorableChild howner htype hchild)
  · obtain ⟨hunit, hsplit⟩ := hasRows_unitOf hhas htype
    have hrow := hrows owner hunit
    rw [DagRun.Counts, if_neg htype] at hrow
    rw [restored, rebuilt_state_iff, ← hrow]
    exact and_iff_left (hids.restorable howner hsplit)

/-! ## Runs -/

section Runs

variable {e : Engine} {s t : DriveState}

theorem Ledger.scheduled (hids : DistinctIDs s.run.wf) (hs : WellFormed s) (hl : Ledger e s)
    {now : ℕ} (hguard : followsRows e s (.sched now) = true) (hstep : SchedStepped e now s t) :
    Ledger e t := by
  cases hstep with
  | hold hphase | picked hphase | await hphase => exact hl.move (by rw [hphase]; rfl) rfl trivial
  | pick hphase =>
    refine hl.move (by rw [hphase]; rfl) rfl ⟨hids.steps.filter _, ?_⟩
    intro id hid
    simp only [pickAllRunnable, mem_filter, Bool.and_eq_true, decide_eq_true_eq] at hid
    obtain ⟨-, ⟨hpending, hactive⟩, -⟩ := hid
    exact ⟨by simp [hpending], by simp [hpending], hactive⟩
  | dispatch id ids hphase out hout =>
    refine hl.dispatched hids hs hphase ?_ hout
    intro htype b hb
    simp only [followsRows, hphase, htype, ne_eq, not_true_eq_false, decide_false,
      Bool.false_or, List.all_eq_true, Bool.or_eq_true] at hguard
    exact hguard b hb
  | quiesce hphase hnone t hquiesced =>
    refine hl.quiesced hids hs hphase hnone ?_ hquiesced
    intro hstopped hfail hloop
    simpa [followsRows, hphase, hnone, hstopped, hfail, hloop] using hguard
  | receive wr rest hphase hresult t hreceived =>
    refine hl.received hids hs hphase hresult ?_ hreceived
    simpa [followsRows, hphase, hresult] using hguard
  | discard wr dropped rest hphase hsome hresult =>
    refine hl.discarded hids hs hresult ?_
    simpa [followsRows, hphase, hresult] using hguard
  | park wr hphase hnone => exact hl.parked hids hs now hphase hnone

theorem CountOk.resumed {r r' : DagRun} (hids : DistinctIDs r.wf) (hc : CountOk r rows [])
    (hphase : PhaseOk r rows .parked) (hwf : r'.wf = r.wf)
    (hstate : ∀ id, id ≠ r.waitingStep → r'.state id = r.state id)
    (hmemo : r'.parallelDone = r.parallelDone)
    (hcontrib : ∀ id, id ≠ r.waitingStep → r'.contrib id = r.contrib id) : CountOk r' rows [] := by
  obtain ⟨step, hstep, hwaitingStep, hwaiting, hagent, hworkflow⟩ := hphase
  have hkeeps : ∀ group child, r'.Keeps group child ↔ r.Keeps group child := by
    intro group child
    rw [DagRun.Keeps, memo, hmemo]
    rfl
  have hchildContrib : ∀ group ∈ r.wf.steps, group.type = .parallel → ∀ child ∈ group.subSteps,
      r'.contrib child.id = r.contrib child.id := by
    intro group hgroup htype child hchild
    apply hcontrib
    intro hid
    rw [← hwaitingStep] at hid
    exact hids.nested _ (mem_groupChildren hgroup htype hchild) (hid ▸ mem_order hstep)
  have hchildren : step.type = .parallel → ∀ child ∈ step.subSteps,
      r'.Keeps step.id child.id ∨ (r'.contrib child.id).isSome → child.id ∈ doneIDs rows := by
    intro htype child hchild hcase
    rw [hkeeps, hchildContrib step hstep htype child hchild] at hcase
    exact hc.children step hstep htype child hchild hcase
  have hheld : CountOk r rows [step.id] :=
    ⟨fun owner howner hhas _ => hc.settled owner howner hhas not_mem_nil, hc.children, hc.memos⟩
  refine hheld.settle hids hstep hwf (hwaitingStep ▸ hstate) (fun group _ => hkeeps group) ?_
    (fun _ _ _ _ _ _ => Iff.rfl) ?_ hchildren ?_
  · intro owner howner htype _ child hchild
    rw [hchildContrib owner howner htype child hchild]
  · intro hhas unit hunit
    have htype : step.type = .parallel := by simpa [hasRows, hagent, hworkflow] using hhas
    have hchild := (unitOf_parallel htype).mp hunit
    have hsettled := hc.settled step hstep hhas not_mem_nil unit hunit
    rw [DagRun.Counts, if_pos htype] at hsettled ⊢
    constructor
    · intro hdone
      rcases hsettled.mp hdone with hkept | ⟨hpassed, -⟩
      · exact .inl ((hkeeps _ _).mpr hkept)
      · simp [hwaiting] at hpassed
    · exact fun hcounts => hchildren htype unit hchild (hcounts.imp_right And.right)
  · intro group child res hres
    rw [memo, hmemo] at hres
    exact hc.memos group child res hres

theorem Ledger.leavePark (hids : DistinctIDs s.run.wf) (hs : WellFormed s) (hl : Ledger e s)
    (hphase : s.phase = .parked) {st : Status} (hst : st ≠ .running)
    {contrib stepStates child history}
    (hcontrib : ∀ id, id ≠ s.run.waitingStep → contrib id = s.run.contrib id) :
    Ledger e (s.leavePark st contrib stepStates child history) := by
  have hquiet := hs.quiet (by simp [hphase, Phase.driving])
  have hempty := hs.inFlightIDs_eq_nil hquiet
  obtain ⟨hworkers, hresults⟩ := hs.drained hquiet
  have hbusy : s.busyIDs = [] := by rw [busyIDs, hphase, hempty]; rfl
  have hbusy' : (s.leavePark st contrib stepStates child history).busyIDs = [] := hempty
  have hflight := hl.flight
  have hcounts := hl.counts
  rw [hbusy] at hflight hcounts
  refine ⟨⟨hl.table.fresh, by simp [DriveState.leavePark, hworkers],
    by simp [DriveState.leavePark, hresults]⟩, ?_, ?_, trivial⟩
  · rw [hbusy']
    exact hflight.settle not_mem_nil hst
  · rw [hbusy']
    exact hcounts.resumed hids (hphase ▸ hl.phase) rfl (fun _ hne => Function.update_of_ne hne ..)
      rfl hcontrib

theorem Ledger.step (hids : DistinctIDs s.run.wf) (hs : WellFormed s) (hl : Ledger e s)
    {ev : Event} (hguard : followsRows e s ev = true) (hstep : step e s ev = some t) :
    Ledger e t := by
  cases step_cases hstep with
  | sched now t hsched => exact hl.scheduled hids hs hguard hsched
  | worker index act w hw t hworker => exact hl.worked hids hs hw hworker
  | cancel err =>
    refine ⟨⟨hl.table.fresh, ?_, ?_⟩, hl.flight, hl.counts, hl.phase⟩
    · intro w hw
      exact (hl.table.workers w hw).canceled err
    · intro wr hwr
      exact (hl.table.results wr hwr).canceled err
  | stop =>
    refine ⟨hl.table, hl.flight, hl.counts.change rfl rfl (fun _ => .inl rfl) ?_, ?_⟩
    · exact fun owner _ _ hfree => .inl ⟨hfree, Iff.rfl⟩
    · have hphase := hl.phase
      dsimp only
      cases hat : s.phase <;> rw [hat] at hphase <;> exact hphase
  | resolve approve memory hphase =>
    have hst : (if approve then Status.passed else .failed) ≠ .running := by
      cases approve <;> decide
    exact hl.leavePark hids hs hphase hst fun id hne => Function.update_of_ne hne _ _
  | wake hphase =>
    have hst : Status.pending ≠ .running := by decide
    exact hl.leavePark hids hs hphase hst fun _ _ => rfl

end Runs

/-! ## Starts -/

/-- The starts whose rows are the run's own: a new instance, and a parked one brought
back from the rows it left.  A resumed instance starts from the rows of another one and
writes them down as skipped. -/
inductive Begins : DriveState → Prop where
  | fresh (instID : String) (wf : WorkflowConfig) (cell : SourceItem) (seed : List MemoryStep)
      (event : String → Option String) : Begins { run := initDAG instID wf cell seed event }
  | approval (instID : String) (wf : WorkflowConfig) (cell : SourceItem) (prior : List StepRun)
      (parkedAt nextRow : ℕ) (hfresh : ∀ row ∈ prior, row.id < nextRow) (s : DriveState)
      (hpark : rehydrateApproval (initDAG instID wf cell [] fun _ => none) prior parkedAt nextRow =
        some s) : Begins s
  | wait (instID : String) (wf : WorkflowConfig) (cell : SourceItem) (prior : List StepRun)
      (now nextRow : ℕ) (hfresh : ∀ row ∈ prior, row.id < nextRow) (s : DriveState)
      (hpark : rehydrateWait (initDAG instID wf cell [] fun _ => none) prior now nextRow =
        some s) : Begins s

theorem Begins.initial (hbegins : Begins s) : Initial s := by
  cases hbegins with
  | fresh instID wf cell seed event => exact .fresh instID wf cell seed event
  | approval instID wf cell prior parkedAt nextRow hfresh s hpark =>
    exact .approval instID wf cell prior parkedAt nextRow s hpark
  | wait instID wf cell prior now nextRow hfresh s hpark =>
    exact .wait instID wf cell prior now nextRow s hpark

section Starts

variable (instID : String) {wf : WorkflowConfig} (cell : SourceItem)

/-- A rebuilt run counts what has a done row. -/
theorem rebuilt_counts (hids : DistinctIDs wf) (rows : List StepRun) :
    CountOk (restoreCachedSteps (initDAG instID wf cell [] fun _ => none) rows) rows [] := by
  have hwf := rebuilt_wf instID wf cell rows
  have hcontrib : ∀ group ∈ wf.steps, group.type = .parallel → ∀ child ∈ group.subSteps,
      ¬ ((restoreCachedSteps (initDAG instID wf cell [] fun _ => none) rows).contrib
        child.id).isSome := by
    intro group hgroup htype child hchild
    have hid := hids.nested _ (mem_groupChildren hgroup htype hchild)
    rw [restored_contrib (initDAG instID wf cell [] fun _ => none) rows hid]
    simp [initDAG]
  refine ⟨?_, ?_, ?_⟩
  · intro owner howner hhas _ unit hunit
    rw [hwf] at howner
    rcases hunit.recorded hhas with ⟨htype, hchild⟩ | ⟨htype, rfl⟩
    · rw [DagRun.Counts, if_pos htype, DagRun.ChildCounts, rebuilt_keeps_iff]
      simp [hcontrib owner howner htype unit hchild, hids.restorableChild howner htype hchild]
    · rw [DagRun.Counts, if_neg htype, rebuilt_state_iff]
      simp [hids.restorable howner (hasRows_unitOf hhas htype).2]
  · intro group hgroup htype child hchild hcase
    rw [hwf] at hgroup
    rcases hcase with hkept | hsome
    · exact ((rebuilt_keeps_iff instID wf cell rows _ _).mp hkept).1
    · exact absurd hsome (hcontrib group hgroup htype child hchild)
  · apply restored_memo
    intro group child res hres
    cases hres

theorem rebuilt_parks (e : Engine) (hids : DistinctIDs wf) {prior : List StepRun}
    (hfresh : ∀ row ∈ prior, row.id < nextRow) {r : DagRun} {step : StepConfig}
    (hr : r = restoreCachedSteps (initDAG instID wf cell [] fun _ => none) prior)
    (hstep : step ∈ r.wf.steps) (hrunnable : step.id ∈ r.runnable) (hagent : step.type ≠ .agent)
    (hworkflow : step.type ≠ .workflow) {t : DagRun} (hwf : t.wf = r.wf)
    (hstate : t.state = update r.state step.id (some .waiting))
    (hmemo : t.parallelDone = r.parallelDone) (hcontrib : t.contrib = r.contrib)
    (hwaiting : t.waitingStep = step.id) :
    Ledger e { run := t, phase := .parked, rows := prior, nextRow := nextRow } := by
  have hrested : Rested r.state := hr ▸ restored_rested instID wf cell prior
  have hcounts : CountOk r prior [] := hr ▸ rebuilt_counts instID cell hids prior
  simp only [runnable, pickAllRunnable, mem_filter, Bool.and_eq_true,
    decide_eq_true_eq] at hrunnable
  refine ⟨⟨hfresh, by simp, by simp⟩,
    ⟨nodup_nil, fun id hid => absurd hid not_mem_nil, ?_⟩, ?_, ?_⟩
  · intro id hrunning
    change t.state id = _ at hrunning
    rw [hstate] at hrunning
    have hchange : ChangesTo (fun st => st ≠ .running) r.state
        (update r.state step.id (some .waiting)) := ChangesTo.update _ _ (by decide)
    exact absurd (hchange.of_not_allowed (by simp) hrunning) (hrested.ne (by decide) (by decide) id)
  · refine hcounts.change hwf hmemo (fun id => .inl (congrFun hcontrib id)) ?_
    intro owner _ _ hfree
    refine .inl ⟨hfree, ?_⟩
    change t.state owner.id = _ ↔ _
    rw [hstate]
    by_cases hsame : owner.id = step.id
    · simp [hsame, hrunnable.2.1.1]
    · rw [Function.update_of_ne hsame]
  · refine ⟨step, ?_, hwaiting.symm, ?_, hagent, hworkflow⟩
    · change step ∈ t.wf.steps
      rwa [hwf]
    · change t.state step.id = _
      rw [hstate, Function.update_self]

end Starts

theorem waitParkOf_spec {id : String} {park : String × String}
    (hpark : waitParkOf wf id = some park) :
    park.1 = id ∧ (byID wf id).type ≠ .agent ∧ (byID wf id).type ≠ .workflow := by
  rw [waitParkOf] at hpark
  split at hpark
  · rename_i htype
    rw [some.injEq] at hpark
    exact ⟨by rw [← hpark], by simp [htype], by simp [htype]⟩
  · rename_i htype
    obtain ⟨child, -, rfl⟩ := map_eq_some_iff.mp hpark
    exact ⟨rfl, by simp [htype], by simp [htype]⟩
  · cases hpark

theorem Begins.ledger {e : Engine} (hbegins : Begins s) (hids : DistinctIDs s.run.wf) :
    Ledger e s := by
  cases hbegins with
  | fresh instID wf cell seed event =>
    have hrested := initDAG_rested instID wf cell seed event
    have hnone : ∀ id ∈ ([] : List String),
        (initDAG instID wf cell seed event).state id = some .running := by simp
    refine ⟨⟨by simp, by simp, by simp⟩, ⟨nodup_nil, hnone, ?_⟩, ⟨?_, ?_, ?_⟩, trivial⟩
    · exact fun id hrunning => absurd hrunning (hrested.ne (by decide) (by decide) id)
    · intro owner _ _ _ unit _
      have hpassed : (initDAG instID wf cell seed event).state owner.id ≠ some .passed := by
        rw [initDAG]
        dsimp only
        split <;> simp
      refine iff_of_false (by simp [doneIDs]) ?_
      simp [DagRun.Counts, DagRun.ChildCounts, DagRun.Keeps, memo, hpassed]
      simp [initDAG]
    · intro group _ _ child _ hcase
      simp [DagRun.Keeps, memo, initDAG] at hcase
    · intro group child res hres
      cases hres
  | approval instID wf cell prior parkedAt nextRow hfresh s hpark =>
    simp only [rehydrateApproval, map_eq_some_iff, firstRunnableApproval] at hpark
    obtain ⟨id, hfind, rfl⟩ := hpark
    change DistinctIDs (restoreCachedSteps (initDAG instID wf cell [] fun _ => none) prior).wf at hids
    have hrunnable := mem_of_find?_eq_some hfind
    obtain ⟨step, hstep, rfl⟩ := List.mem_map.mp (mem_filter.mp hrunnable).1
    have htype := find?_some hfind
    rw [hids.byID_eq hstep, decide_eq_true_eq] at htype
    have hwf := rebuilt_wf instID wf cell prior
    exact rebuilt_parks instID cell e (hwf ▸ hids) hfresh rfl hstep hrunnable (by simp [htype])
      (by simp [htype]) rfl rfl rfl rfl rfl
  | wait instID wf cell prior now nextRow hfresh s hpark =>
    simp only [rehydrateWait, map_eq_some_iff, firstRunnableWait] at hpark
    obtain ⟨park, hfind, rfl⟩ := hpark
    change DistinctIDs (restoreCachedSteps (initDAG instID wf cell [] fun _ => none) prior).wf at hids
    obtain ⟨id, hrunnable, hwait⟩ := exists_of_findSome?_eq_some hfind
    obtain ⟨step, hstep, rfl⟩ := List.mem_map.mp (mem_filter.mp hrunnable).1
    have hwf := rebuilt_wf instID wf cell prior
    obtain ⟨hid, hagent, hworkflow⟩ := waitParkOf_spec hwait
    rw [hids.byID_eq hstep] at hagent hworkflow
    refine rebuilt_parks instID cell e (hwf ▸ hids) hfresh rfl hstep hrunnable hagent hworkflow
      rfl ?_ rfl rfl hid
    rw [← hid]
    rfl

/-! ## Recovered runs -/

theorem WorkerOk.unit {ctxErr : Option String} {w : Worker} (hok : WorkerOk rows nextRow ctxErr w)
    (hof : w.Of wf) (hhas : hasRows w.step = true) {unit : StepConfig} (hunit : UnitOf w.step unit) :
    ∃ u ∈ w.units, u.step = unit := by
  rcases hunit.recorded hhas with ⟨htype, hchild⟩ | ⟨htype, rfl⟩
  · rw [← hok.group htype] at hchild
    exact List.mem_map.mp hchild
  · have hforeach : w.step.type ≠ .foreach := fun h => by simp [hasRows, h] at hhas
    obtain ⟨u, honly⟩ := hok.single htype hforeach
    have hmem : u ∈ w.units := by simp [honly]
    rcases (hof.units u hmem).recorded hhas with ⟨hparallel, -⟩ | ⟨-, heq⟩
    · exact absurd hparallel htype
    · exact ⟨u, hmem, heq⟩

/-- Nothing of a step in flight counts while none of its units has passed. -/
theorem Ledger.restoresAs {e : Engine} (hids : DistinctIDs s.run.wf) (hs : WellFormed s)
    (hl : Ledger e s) (howner : owner ∈ s.run.wf.steps) (hhas : hasRows owner = true)
    (hnone : s.unapplied owner.id = false) : RestoresAs s owner := by
  apply restoresAs_of_rows hids howner hhas
  intro unit hunit
  by_cases hbusy : owner.id ∈ s.busyIDs
  · simp only [unapplied, Bool.or_eq_false_iff] at hnone
    obtain ⟨⟨hworkers, hresults⟩, hheld⟩ := hnone
    have hrunning := hl.flight.running owner.id hbusy
    have hdone : unit.id ∉ doneIDs s.rows := by
      rw [busyIDs, inFlightIDs, mem_append, mem_append] at hbusy
      rcases hbusy with hbusy | hbusy | hbusy
      · cases hphase : s.phase <;> simp_all [Phase.held]
      · obtain ⟨w, hw, hid⟩ := List.mem_map.mp hbusy
        have hof := hs.workers w hw
        have heq := hids.step_eq hof.declared howner hid
        subst heq
        obtain ⟨u, hu, rfl⟩ := (hl.table.workers w hw).unit hof hhas hunit
        refine ((hl.table.workers w hw).units u hu).not_done hhas ?_
        have hnone := List.any_eq_false.mp hworkers w hw
        simp only [decide_true, Bool.true_and, Bool.not_eq_true, List.any_eq_false] at hnone
        simpa using hnone u hu
      · obtain ⟨wr, hwr, hid⟩ := List.mem_map.mp hbusy
        exact absurd hid (by simpa using List.any_eq_false.mp hresults wr hwr)
    refine iff_of_false hdone ?_
    rw [DagRun.Counts]
    split_ifs with htype
    · have hchild := (unitOf_parallel htype).mp hunit
      rintro (hkept | ⟨hpassed, -⟩)
      · exact hdone (hl.counts.children owner howner htype unit hchild (.inl hkept))
      · simp [hrunning] at hpassed
    · simp [hrunning]
  · exact hl.counts.settled owner howner hhas hbusy unit hunit

/-- In every run whose rows follow it, a restart would count as passed exactly what the
live run counts: for each agent and sub-workflow step, and for each child of a group,
once the loop has applied its result. -/
theorem restored_iff_counted {e : Engine} {s t : DriveState} {events : List Event}
    (hbegins : Begins s) (hids : DistinctIDs s.run.wf)
    (hguarded : Machine.Guarded (step e) (fun s ev => followsRows e s ev = true) s events)
    (hrun : exec (step e) s events = some t) {owner : StepConfig}
    (howner : owner ∈ t.run.wf.steps) (hhas : hasRows owner = true)
    (happlied : t.unapplied owner.id = false) : RestoresAs t owner := by
  have hkept : ∀ s ev s', (DistinctIDs s.run.wf ∧ WellFormed s ∧ Ledger e s) →
      followsRows e s ev = true → step e s ev = some s' →
      DistinctIDs s'.run.wf ∧ WellFormed s' ∧ Ledger e s' := by
    rintro s ev s' ⟨hids, hs, hl⟩ hguard hstep
    exact ⟨step_wf hstep ▸ hids, hs.step hstep, hl.step hids hs hguard hstep⟩
  have hstart : DistinctIDs s.run.wf ∧ WellFormed s ∧ Ledger e s :=
    ⟨hids, hbegins.initial.started.wellFormed, hbegins.ledger hids⟩
  obtain ⟨hids', hs, hl⟩ := exec_invariant hkept hstart hguarded hrun
  exact hl.restoresAs hids' hs howner hhas happlied

/-! ## A fix workflow

An implementation is checked by a group and then tested; a failed test sends the run
back to the implementation. -/

def fixWorkflow : WorkflowConfig where
  id := "fix"
  steps :=
    [{ id := "implement" },
     { id := "checks", type := .parallel, seqDependsOn := ["implement"],
       subSteps := [{ id := "lint" }, { id := "unit" }] },
     { id := "test", seqDependsOn := ["checks"],
       onFail := some { goto := "implement", maxRetries := 2 } }]

theorem fixWorkflow_distinctIDs : DistinctIDs fixWorkflow := by
  refine ⟨by decide, by decide, by decide, ?_⟩
  have hnone : ∀ s ∈ fixWorkflow.steps, s.type ≠ .foreach := by decide
  exact fun s hs hforeach => absurd hforeach (hnone s hs)

def fixStart : DriveState :=
  { run := initDAG "wf-1" fixWorkflow {} [] fun _ => none }

/-- The implementation passes, and then both checks. -/
def checksPass : List Event :=
  List.replicate 4 (.sched 0) ++ runWorker 0 { success := true } ++ List.replicate 5 (.sched 0) ++
    [.worker 0 (.start 0), .worker 0 (.start 1), .worker 0 (.finish 1 { success := true }),
      .worker 0 (.finish 0 { success := true }), .worker 0 .deliver, .sched 0]

/-- The test then fails, and the run loops back. -/
def testLoopsBack : List Event :=
  checksPass ++ List.replicate 4 (.sched 0) ++ runWorker 0 { output := "tests failed" } ++
    List.replicate 3 (.sched 0)

theorem fixStart_begins : Begins fixStart := .fresh "wf-1" fixWorkflow {} [] _

theorem checksPass_runs : (exec (step (plainEngine 2)) fixStart checksPass).isSome = true := by
  decide

theorem fix_checksPass_restored :
    ∃ t owner, exec (step (plainEngine 2)) fixStart checksPass = some t ∧
      owner ∈ t.run.wf.steps ∧ owner.id = "checks" ∧ t.run.state "checks" = some .passed ∧
      RestoresAs t owner := by
  obtain ⟨owner, howner, hid⟩ := List.mem_map.mp (by decide : "checks" ∈
    ((exec (step (plainEngine 2)) fixStart checksPass).get checksPass_runs).run.wf.steps.map
      StepConfig.id)
  refine ⟨_, owner, exec_get checksPass_runs, howner, hid, by decide, ?_⟩
  exact restored_iff_counted fixStart_begins fixWorkflow_distinctIDs (by decide) (exec_get _) howner
    (List.all_eq_true.mp (by decide) owner howner) (by rw [hid]; decide)

/-- The loop-back sets the implementation back to pending, and its row stays done: a
restart at that point takes it for passed. -/
theorem fix_testLoopsBack_not_restored :
    ∃ t owner, exec (step (plainEngine 2)) fixStart testLoopsBack = some t ∧
      owner ∈ t.run.wf.steps ∧ owner.id = "implement" ∧ t.unapplied "implement" = false ∧
      t.run.state "implement" = some .pending ∧ t.restored.state "implement" = some .passed ∧
      ¬ RestoresAs t owner := by
  refine ⟨_, _, exec_get (by decide), mem_cons_self, rfl, by decide, by decide, by decide, ?_⟩
  rw [RestoresAs, if_neg (by decide)]
  decide

end Apiary.Workflow
