import Apiary.Core.Table
import Apiary.Workflow.DriveSteps

/-!
# Invariants of every run

What holds in every state the scheduler can reach, whatever the interleaving:
the loop's counter is the number of results still to come, workers and results
belong to declared steps, only a parked step is waiting, and loop-backs go to
declared targets.
-/

namespace Apiary.Workflow

open Config List Option Function Phase DriveState Mark

variable {wf : WorkflowConfig} {id target : String} {w : Worker} {index : ℕ} {act : WorkerAct}
  {out : DriveState × Bool} {wr : WorkerResult} {ev : Event} {s : DriveState}

/-- The steps a worker of `parent` runs as its units. -/
def UnitOf (parent unit : StepConfig) : Prop :=
  match parent.type with
  | .parallel => unit ∈ parent.subSteps
  | .foreach => ∃ body index, parent.step = some body ∧ unit = itemStep parent body index
  | _ => unit = parent

structure Worker.Of (wf : WorkflowConfig) (w : Worker) : Prop where
  declared : w.step ∈ wf.steps
  units : ∀ u ∈ w.units, UnitOf w.step u.step

/-- The targets a failure can loop back to. -/
def loopTargets (wf : WorkflowConfig) : List String :=
  wf.steps.flatMap fun s => (s.onFail.toList ++ s.onConflict.toList).map StepOutcome.goto

structure WellFormed (s : DriveState) : Prop where
  count : s.inFlight = s.workers.length + s.resultCh.length
  declared : ∀ id ∈ order s.run.wf, s.run.state id ≠ none
  waiting : ∀ id, s.run.state id = some .waiting → s.phase = .parked ∧ id = s.run.waitingStep
  picked : ∀ ids, s.phase = .dispatch ids → ids ⊆ order s.run.wf
  workers : ∀ w ∈ s.workers, w.Of s.run.wf
  results : ∀ wr ∈ s.resultCh, wr.step ∈ s.run.wf.steps
  draining : ∀ wr, s.phase = .drain wr → wr.step ∈ s.run.wf.steps
  quiet : s.phase.driving = false → s.inFlight = 0
  loopTarget : s.loopTarget ≠ "" → s.loopTarget ∈ loopTargets s.run.wf
  resets : ∀ ids, reset ids ∈ s.history →
    ∃ target ∈ loopTargets s.run.wf, ids = resetSet s.run.wf target

theorem foreachItems_unitOf {step item : StepConfig} {contrib : String → Option MemoryStep}
    {items : List StepConfig} (hitems : foreachItems step contrib = .ok items)
    (hitem : item ∈ items) : ∃ body index, step.step = some body ∧ item = itemStep step body index := by
  rw [foreachItems] at hitems
  split at hitems
  · cases hitems
  · split at hitems
    · cases hitems
    · split at hitems
      · cases hitems
      · rename_i body hbody
        rw [Except.ok.injEq] at hitems
        rw [← hitems] at hitem
        obtain ⟨index, -, rfl⟩ := List.mem_map.mp hitem
        exact ⟨body, index, hbody, rfl⟩

/-- A launched worker runs the units of its own step. -/
theorem launch_of (r : DagRun) {step : StepConfig} (hstep : step ∈ wf.steps) :
    (launch r step).Of wf := by
  refine ⟨(launch_step r step).symm ▸ hstep, ?_⟩
  rw [launch_step]
  intro u hu
  rw [launch] at hu
  split at hu
  · rename_i htype
    obtain ⟨child, hchild, rfl⟩ := List.mem_map.mp hu
    simp only [UnitOf, htype]
    split <;> exact hchild
  · rename_i htype
    split at hu
    · cases hu
    · rename_i hitems
      obtain ⟨item, hitem, rfl⟩ := List.mem_map.mp hu
      simp only [UnitOf, htype]
      exact foreachItems_unitOf hitems hitem
  · rename_i hparallel hforeach
    rw [mem_singleton] at hu
    subst hu
    rw [UnitOf]
    split
    · exact absurd ‹_› hparallel
    · exact absurd ‹_› hforeach
    · rfl

theorem mem_setUnit {u u' : UnitRun} {unit : ℕ} {phase : UnitPhase}
    (hunit : w.units[unit]? = some u) (hu' : u' ∈ (w.setUnit unit phase).units) :
    u' = { u with phase := phase } ∨ ∃ other, other ≠ unit ∧ w.units[other]? = some u' := by
  rw [Worker.setUnit, modify_eq_set_getElem?, hunit] at hu'
  exact Table.mem_set hu'

theorem setUnit_steps (w : Worker) (unit : ℕ) (phase : UnitPhase) :
    (w.setUnit unit phase).units.map UnitRun.step = w.units.map UnitRun.step := by
  apply ext_getElem?
  intro i
  rw [getElem?_map, getElem?_map, Worker.setUnit, getElem?_modify]
  cases w.units[i]? with
  | none => rfl
  | some =>
    apply congrArg some
    dsimp only
    split <;> rfl

theorem Worker.Of.setUnit (hw : w.Of wf) (index : ℕ) (phase : UnitPhase) :
    (w.setUnit index phase).Of wf := by
  refine ⟨hw.declared, ?_⟩
  intro u hu
  simp only [Worker.setUnit] at hu ⊢
  obtain ⟨i, hi⟩ := mem_iff_getElem?.mp hu
  rw [getElem?_modify] at hi
  obtain ⟨u', hu', rfl⟩ := map_eq_some_iff.mp hi
  have hmem := hw.units u' (mem_of_getElem? hu')
  split <;> exact hmem

section Frames

variable {e : Engine} {s t : DriveState}

theorem startUnit_eq (s : DriveState) (w : Worker) (u : UnitRun) :
    ∃ rows nextRow history, (s.startUnit w u).1 =
      { s with rows := rows, nextRow := nextRow, history := history } := by
  rw [startUnit]
  split <;> exact ⟨_, _, _, rfl⟩

theorem finishUnit_eq (s : DriveState) (w : Worker) (u : UnitRun) (row : ℕ) (res : StepResult) :
    ∃ rows, (s.finishUnit w u row res).1 = { s with rows := rows } := by
  rw [finishUnit]
  dsimp only
  split <;> exact ⟨_, rfl⟩

/-- The steps of a worker but its last change only that worker. -/
inductive WorkerMoved (e : Engine) (s : DriveState) (index : ℕ) (w : Worker) : DriveState → Prop
  | unit (unit : ℕ) (phase : UnitPhase) (rows : List StepRun) (nextRow : ℕ) (history) :
      WorkerMoved e s index w { s with
        workers := s.workers.set index (w.setUnit unit phase)
        rows := rows, nextRow := nextRow, history := history }
  | deliver :
      WorkerMoved e s index w { s with
        workers := s.workers.eraseIdx index
        resultCh := s.resultCh ++ [w.result e s.run.cell] }

variable (hstep : WorkerStepped e s index w act t)

include hstep

theorem workerStepped_moved : WorkerMoved e s index w t := by
  cases hstep with
  | spawn unit => exact .unit unit ..
  | start unit u =>
    obtain ⟨rows, nextRow, history, heq⟩ := startUnit_eq s w u
    exact heq ▸ .unit unit _ rows nextRow history
  | finish unit u row res =>
    obtain ⟨rows, heq⟩ := finishUnit_eq s w u row res
    exact heq ▸ .unit unit _ rows ..
  | deliver => exact .deliver

/-- A worker writes to its own place, the channel, the rows and the history. -/
theorem workerStepped_eq :
    ∃ workers resultCh rows nextRow history, t = { s with
      workers := workers, resultCh := resultCh, rows := rows, nextRow := nextRow,
      history := history } := by
  cases workerStepped_moved hstep <;> exact ⟨_, _, _, _, _, rfl⟩

/-- A step of a worker puts no other step in flight. -/
theorem workerStepped_steps (hw : s.workers[index]? = some w) :
    (∀ w' ∈ t.workers, ∃ w'' ∈ s.workers, w''.step = w'.step) ∧
      ∀ wr ∈ t.resultCh, wr ∈ s.resultCh ∨ wr.step = w.step := by
  cases workerStepped_moved hstep with
  | unit =>
    refine ⟨fun w' hw' => ?_, fun _ hwr => .inl hwr⟩
    rcases mem_or_eq_of_mem_set hw' with hold | rfl
    · exact ⟨w', hold, rfl⟩
    · exact ⟨w, mem_of_getElem? hw, rfl⟩
  | deliver =>
    exact ⟨fun w' hw' => ⟨w', mem_of_mem_eraseIdx hw', rfl⟩,
      Table.forall_insert (fun _ => .inl) (.inr (result_step ..))⟩

end Frames

/-! ## Well-formedness is kept -/

section Steps

variable {e : Engine} {s t : DriveState}

variable (hs : WellFormed s)

include hs

theorem WellFormed.not_waiting (hphase : s.phase ≠ .parked) (id : String) :
    s.run.state id ≠ some .waiting :=
  fun hwaiting => hphase (hs.waiting id hwaiting).1

/-- A step of the loop that parks nothing keeps what is said about step states;
the rest is about what the step itself changed. -/
theorem WellFormed.loop (hfrom : s.phase ≠ .parked)
    (hstate : ChangesTo (fun st => st ≠ .waiting) s.run.state t.run.state)
    (hwf : t.run.wf = s.run.wf) (hcount : t.inFlight = t.workers.length + t.resultCh.length)
    (hpicked : ∀ ids, t.phase = .dispatch ids → ids ⊆ order s.run.wf)
    (hworkers : ∀ w ∈ t.workers, w.Of s.run.wf)
    (hresults : ∀ wr ∈ t.resultCh, wr.step ∈ s.run.wf.steps)
    (hdraining : ∀ wr, t.phase = .drain wr → wr.step ∈ s.run.wf.steps)
    (hquiet : t.phase.driving = false → t.inFlight = 0)
    (hloop : t.loopTarget ≠ "" → t.loopTarget ∈ loopTargets s.run.wf)
    (hresets : ∀ ids, reset ids ∈ t.history →
      ∃ target ∈ loopTargets s.run.wf, ids = resetSet s.run.wf target) : WellFormed t where
  count := hcount
  declared := by
    rw [hwf]
    intro id hid
    exact hstate.ne_none (hs.declared id hid)
  waiting := by
    intro id hwaiting
    exact absurd (hstate.of_not_allowed (by simp) hwaiting) (hs.not_waiting hfrom id)
  picked := hwf.symm ▸ hpicked
  workers := hwf.symm ▸ hworkers
  results := hwf.symm ▸ hresults
  draining := hwf.symm ▸ hdraining
  quiet := hquiet
  loopTarget := hwf.symm ▸ hloop
  resets := hwf.symm ▸ hresets

theorem WellFormed.move (hfrom : s.phase ≠ .parked) {run : DagRun}
    (hstate : ChangesTo (fun st => st ≠ .waiting) s.run.state run.state) (hwf : run.wf = s.run.wf)
    {history} (hresets : ∀ ids, reset ids ∈ history → reset ids ∈ s.history)
    {phase : Phase} (hpicked : ∀ ids, phase = .dispatch ids → ids ⊆ order s.run.wf)
    (hdraining : ∀ wr, phase ≠ .drain wr) (hquiet : phase.driving = false → s.inFlight = 0) :
    WellFormed { s with run := run, phase := phase, history := history } :=
  hs.loop hfrom hstate hwf hs.count hpicked hs.workers hs.results
    (fun wr hphase => absurd hphase (hdraining wr)) hquiet hs.loopTarget
    fun ids hids => hs.resets ids (hresets ids hids)

theorem WellFormed.dispatched {ids : List String} (hphase : s.phase = .dispatch (id :: ids))
    (hout : Dispatched s (byID s.run.wf id) id out) :
    WellFormed { out.1 with phase := if out.2 then .check else .dispatch ids } := by
  have hfrom : s.phase ≠ .parked := by simp [hphase]
  have hsub := cons_subset.mp (hs.picked _ hphase)
  have hdeclared : byID s.run.wf id ∈ s.run.wf.steps := byID_mem hsub.1
  have hpicked : ∀ ids', Phase.dispatch ids = .dispatch ids' → ids' ⊆ order s.run.wf := by
    intro ids' heq
    rw [Phase.dispatch.injEq] at heq
    exact heq ▸ hsub.2
  have hpush : ∀ res, ∀ wr ∈ s.resultCh ++ [{ step := byID s.run.wf id, res := res }],
      wr.step ∈ s.run.wf.steps :=
    fun _ => Table.forall_insert hs.results hdeclared
  have hstate : ChangesTo (fun st => st ≠ .waiting) s.run.state out.1.run.state :=
    hout.changes.mono fun _ h => h.2.1
  cases hout with
  | errored =>
    refine hs.loop hfrom hstate rfl ?_ hpicked hs.workers (hpush _) (by simp)
      (by simp [driving]) hs.loopTarget hs.resets
    simp [push, hs.count, Nat.add_assoc]
  | asked =>
    refine hs.loop hfrom hstate rfl ?_ hpicked hs.workers (hpush _) (by simp)
      (by simp [driving]) hs.loopTarget ?_
    · simp [push, began, hs.count, Nat.add_assoc]
    · simpa [push, began] using hs.resets
  | condSkipped =>
    exact hs.move hfrom hstate rfl (fun _ h => h) hpicked (by simp) (by simp [driving])
  | routed chosen =>
    obtain ⟨state, -, heq⟩ := routeSplit_eq s.run (byID s.run.wf id) chosen
    rw [heq] at hstate ⊢
    exact hs.move hfrom hstate rfl (by simp [began]) hpicked (by simp) (by simp [driving])
  | full =>
    exact hs.move hfrom hstate rfl (fun _ h => h) (by simp) (by simp) (by simp [driving])
  | spawned =>
    refine hs.loop hfrom hstate rfl ?_ hpicked ?_ hs.results (by simp)
      (by simp [driving]) hs.loopTarget ?_
    · simp [spawn, began, hs.count]
      omega
    · exact Table.forall_insert hs.workers (launch_of _ hdeclared)
    · simpa [spawn, began] using hs.resets

theorem WellFormed.quiesced (hphase : s.phase = .check) (hnone : s.inFlight = 0)
    (hstep : Quiesced s t) : WellFormed t := by
  have hfrom : s.phase ≠ .parked := by simp [hphase]
  cases hstep with
  | stopped | failed | again | ended =>
    exact hs.move hfrom (ChangesTo.refl _) rfl (fun _ h => h) (by simp) (by simp) fun _ => hnone
  | reset hstopped hfail hloop =>
    refine hs.loop hfrom ((resetLoop_changes s.run s.loopTarget).mono (by simp)) rfl hs.count
      (by simp) hs.workers hs.results (by simp) (by simp [driving]) (by simp) ?_
    intro ids hids
    rw [mem_cons, reset.injEq] at hids
    rcases hids with rfl | hids
    · exact ⟨s.loopTarget, hs.loopTarget hloop, rfl⟩
    · exact hs.resets ids hids
  | skipped =>
    exact hs.move hfrom ((skipUnreachable_skips s.run).changes.mono (by simp)) rfl
      (fun _ h => h) (by simp) (by simp) fun _ => hnone

omit hs in
theorem loopEdge_mem {edge : Option StepOutcome} {used : ℕ}
    (hedge : loopEdge edge used = some target) : target ∈ edge.toList.map StepOutcome.goto := by
  cases edge with
  | none => cases hedge
  | some =>
    simp only [loopEdge, ite_none_right_eq_some, some.injEq] at hedge
    simp [hedge.2]

omit hs in
theorem failureTarget_mem {step : StepConfig} {res : StepResult} (hstep : step ∈ wf.steps)
    (htarget : failureTarget s step res = some target) : target ∈ loopTargets wf := by
  refine mem_flatMap.mpr ⟨step, hstep, ?_⟩
  rw [map_append, mem_append]
  obtain ⟨-, htarget⟩ := ite_none_left_eq_some.mp htarget
  split at htarget
  · exact .inr (loopEdge_mem htarget)
  · exact .inl (loopEdge_mem htarget)

omit hs in
/-- Applying a result leaves the loop-back alone, cancels it, or asks for one
that its step declares. -/
theorem Applied.loopTarget_mem (happlied : Applied e s wr t) (hstep : wr.step ∈ wf.steps)
    (hloop : s.loopTarget ≠ "" → s.loopTarget ∈ loopTargets wf) :
    t.loopTarget ≠ "" → t.loopTarget ∈ loopTargets wf := by
  cases happlied with
  | passed => exact hloop
  | retried target hsuccess htarget => exact fun _ => failureTarget_mem hstep htarget
  | failed => exact fun hne => absurd rfl hne

theorem WellFormed.received {rest : List WorkerResult} (hphase : s.phase = .recv)
    (hresult : s.resultCh = wr :: rest) (hstep : Received e (s.take rest) wr t) : WellFormed t := by
  have hfrom : s.phase ≠ .parked := by simp [hphase]
  have hcount : s.inFlight - 1 = s.workers.length + rest.length := by
    have hcount := hs.count
    rw [hresult, length_cons] at hcount
    omega
  have hdeclared : wr.step ∈ s.run.wf.steps := hs.results wr (by simp [hresult])
  have hrest : ∀ wr' ∈ rest, wr'.step ∈ s.run.wf.steps :=
    fun wr' hwr' => hs.results wr' (by simp [hresult, hwr'])
  cases hstep with
  | dropped =>
    exact hs.loop hfrom (ChangesTo.refl _) rfl hcount (by simp) hs.workers hrest (by simp)
      (by simp [driving]) hs.loopTarget hs.resets
  | parking =>
    refine hs.loop hfrom (ChangesTo.refl _) rfl hcount (by simp) hs.workers hrest ?_
      (by simp [driving]) hs.loopTarget hs.resets
    intro wr' heq
    rw [drain.injEq] at heq
    exact heq ▸ hdeclared
  | applied hstopped hparks t happlied =>
    obtain ⟨st, hst, hstate⟩ := happlied.state_eq
    have hactive : st ≠ .waiting := by
      rcases hst with rfl | rfl | rfl <;> decide
    obtain ⟨_, _, _, rfl⟩ := happlied.eq
    exact hs.loop hfrom (hstate ▸ ChangesTo.update _ _ hactive) happlied.frame.1 hcount (by simp)
      hs.workers hrest (by simp) (by simp [driving])
      (happlied.loopTarget_mem hdeclared hs.loopTarget) hs.resets

/-- Entering a park, and being put back in one, leaves exactly one step waiting. -/
theorem WellFormed.parked (now : ℕ) (hphase : s.phase = .drain wr) (hnone : s.inFlight = 0) :
    WellFormed (s.park now wr) := by
  obtain ⟨_, _, _, hpark⟩ := enterPark_eq s.run now wr
  rw [park, hpark]
  refine ⟨hs.count, ?_, ?_, by simp, hs.workers, hs.results, by simp, fun _ => hnone, by simp,
    hs.resets⟩
  · intro id hid
    have hold := hs.declared id hid
    by_cases heq : id = wr.step.id
    · simp [heq]
    · rwa [← update_of_ne heq (some .waiting) s.run.state] at hold
  · intro id hwaiting
    by_cases heq : id = wr.step.id
    · exact ⟨rfl, heq⟩
    · dsimp only at hwaiting
      rw [update_of_ne heq] at hwaiting
      exact absurd hwaiting (hs.not_waiting (by simp [hphase]) id)

theorem WellFormed.leavePark {st : Status} (hst : st ≠ .waiting) {contrib stepStates child history}
    (hresets : ∀ ids, reset ids ∈ history → reset ids ∈ s.history) :
    WellFormed (s.leavePark st contrib stepStates child history) := by
  have hchange : ChangesTo (fun st => st ≠ .waiting) s.run.state
      (update s.run.state s.run.waitingStep (some st)) := ChangesTo.update _ _ hst
  refine ⟨hs.count, fun id hid => hchange.ne_none (hs.declared id hid), ?_,
    by simp [DriveState.leavePark], hs.workers, hs.results, by simp [DriveState.leavePark],
    by simp [DriveState.leavePark, driving], hs.loopTarget,
    fun ids hids => hs.resets ids (hresets ids hids)⟩
  intro id hwaiting
  have hold := hs.waiting id (hchange.of_not_allowed (by simp) hwaiting)
  simp [DriveState.leavePark, hold.2, hst] at hwaiting

theorem WellFormed.scheduled {now : ℕ} (hstep : SchedStepped e now s t) : WellFormed t := by
  cases hstep with
  | hold hphase | picked hphase | await hphase =>
    exact hs.move (by simp [hphase]) (ChangesTo.refl _) rfl (fun _ h => h)
      (by simp) (by simp) (by simp [driving])
  | pick hphase =>
    refine hs.move (by simp [hphase]) (ChangesTo.refl _) rfl (fun _ h => h)
      ?_ (by simp) (by simp [driving])
    intro ids hids
    rw [Phase.dispatch.injEq] at hids
    exact hids ▸ fun id => mem_order_of_mem_pickAllRunnable
  | dispatch id ids hphase out hout => exact hs.dispatched hphase hout
  | quiesce hphase hnone t hquiesced => exact hs.quiesced hphase hnone hquiesced
  | receive wr rest hphase hresult t hreceived => exact hs.received hphase hresult hreceived
  | discard wr dropped rest hphase hsome hresult =>
    refine hs.loop (by simp [hphase]) (ChangesTo.refl _) rfl ?_ (by simp [DriveState.take, hphase])
      hs.workers ?_ hs.draining (by simp [DriveState.take, hphase, driving])
      hs.loopTarget hs.resets
    · have hcount := hs.count
      rw [hresult, length_cons] at hcount
      simp only [DriveState.take]
      omega
    · intro wr' hwr'
      have hmem : wr' ∈ rest := hwr'
      exact hs.results wr' (by simp [hresult, hmem])
  | park wr hphase hnone => exact hs.parked now hphase hnone

theorem WellFormed.worked (hw : s.workers[index]? = some w)
    (hstep : WorkerStepped e s index w act t) : WellFormed t := by
  obtain ⟨hindex, hget⟩ := List.getElem?_eq_some_iff.mp hw
  have hof : w.Of s.run.wf := hs.workers w (hget ▸ getElem_mem hindex)
  have hresets : ∀ ids, reset ids ∈ t.history → reset ids ∈ s.history := by
    cases hstep with
    | spawn | deliver => exact fun _ h => h
    | start =>
      intro ids hids
      rw [setUnit, startUnit] at hids
      split at hids
      · exact hids
      · simpa using hids
    | finish unit u row res =>
      obtain ⟨rows, heq⟩ := finishUnit_eq s w u row res
      rw [setUnit, heq]
      exact fun _ h => h
  cases workerStepped_moved hstep with
  | unit unit phase =>
    refine ⟨?_, hs.declared, hs.waiting, hs.picked, ?_, hs.results, hs.draining, hs.quiet,
      hs.loopTarget, fun ids hids => hs.resets ids (hresets ids hids)⟩
    · rw [hs.count, length_set]
    · intro w' hw'
      rcases mem_or_eq_of_mem_set hw' with hmem | rfl
      · exact hs.workers w' hmem
      · exact hof.setUnit unit phase
  | deliver =>
    refine ⟨hs.count.trans ?_, hs.declared, hs.waiting, hs.picked, ?_, ?_, hs.draining, hs.quiet,
      hs.loopTarget, hs.resets⟩
    · rw [length_eraseIdx_of_lt hindex, length_append, length_singleton]
      omega
    · exact fun w' hw' => hs.workers w' (mem_of_mem_eraseIdx hw')
    · exact Table.forall_insert hs.results (result_step e s.run.cell w ▸ hof.declared)

/-- Nothing the loop relies on mentions the flag of a stop. -/
theorem WellFormed.flagged : WellFormed { s with run := { s.run with stopped := true } } :=
  ⟨hs.count, hs.declared, hs.waiting, hs.picked, hs.workers, hs.results, hs.draining, hs.quiet,
    hs.loopTarget, hs.resets⟩

theorem WellFormed.step (hstep : step e s ev = some t) : WellFormed t := by
  cases step_cases hstep with
  | sched now t hsched => exact hs.scheduled hsched
  | worker index act w hw t hworker => exact hs.worked hw hworker
  | cancel | stop =>
    exact ⟨hs.count, hs.declared, hs.waiting, hs.picked, hs.workers, hs.results, hs.draining,
      hs.quiet, hs.loopTarget, hs.resets⟩
  | resolve approve =>
    have hst : (if approve then Status.passed else .failed) ≠ .waiting := by
      cases approve <;> decide
    refine hs.leavePark hst ?_
    intro ids hids
    cases approve <;> simpa using hids
  | wake =>
    have hst : Status.pending ≠ .waiting := by decide
    exact hs.leavePark hst fun _ h => h

end Steps

/-! ## What the loop keeps between parks -/

/-- A step of the loop that enters no park keeps the identity of the run and sets
no waiting child. -/
structure Kept (r t : DagRun) : Prop where
  instID : t.instID = r.instID
  wf : t.wf = r.wf
  waitingChild : t.waitingChild = r.waitingChild ∨ t.waitingChild = ""

section Kept

variable {e : Engine} {s t : DriveState}

theorem Kept.refl (r : DagRun) : Kept r r := ⟨rfl, rfl, .inl rfl⟩

theorem Dispatched.kept {step : StepConfig} (hout : Dispatched s step id out) :
    Kept s.run out.1.run := by
  obtain ⟨⟨_, _, _, hrun⟩, -⟩ := hout.frame
  rw [hrun]
  exact ⟨rfl, rfl, .inl rfl⟩

theorem closeWindow_kept (r : DagRun) (step : StepConfig) : Kept r (r.closeWindow step) := by
  rw [DagRun.closeWindow]
  split
  · split <;> exact ⟨rfl, rfl, .inr rfl⟩
  · exact ⟨rfl, rfl, .inl rfl⟩
  · exact ⟨rfl, rfl, .inl rfl⟩

theorem Applied.kept (happlied : Applied e s wr t) : Kept s.run t.run := by
  have hclosed := closeWindow_kept s.run wr.step
  cases happlied with
  | passed | failed => exact ⟨hclosed.instID, hclosed.wf, hclosed.waitingChild⟩
  | retried =>
    rw [DagRun.retryStep]
    split <;> exact ⟨hclosed.instID, hclosed.wf, hclosed.waitingChild⟩

/-- The loop enters a park in one way only. -/
theorem SchedStepped.kept_or_parks {now : ℕ} (hstep : SchedStepped e now s t) :
    (Kept s.run t.run ∧ t.phase ≠ .parked) ∨
      ∃ wr, s.phase = .drain wr ∧ s.inFlight = 0 ∧ t = s.park now wr := by
  cases hstep with
  | hold | pick | picked | await => exact .inl ⟨Kept.refl _, by simp⟩
  | dispatch id ids hphase out hout =>
    refine .inl ⟨hout.kept, ?_⟩
    cases out.2 <;> simp
  | quiesce hphase hnone t hquiesced =>
    left
    cases hquiesced <;> exact ⟨⟨rfl, rfl, .inl rfl⟩, by simp⟩
  | receive wr rest hphase hresult t hreceived =>
    left
    cases hreceived with
    | dropped | parking => exact ⟨Kept.refl _, by simp⟩
    | applied hstopped hparks t happlied =>
      obtain ⟨_, _, _, rfl⟩ := happlied.eq
      exact ⟨happlied.kept, by simp⟩
  | discard wr dropped rest hphase => exact .inl ⟨Kept.refl _, by simp [DriveState.take, hphase]⟩
  | park wr hphase hnone => exact .inr ⟨wr, hphase, hnone, rfl⟩

theorem step_stopped (hfree : ev ≠ .stop) (hstep : Workflow.step e s ev = some t) :
    t.run.stopped = s.run.stopped := by
  cases step_cases hstep with
  | sched now t hsched =>
    cases hsched with
    | dispatch id ids hphase out hout =>
      obtain ⟨⟨_, _, _, hrun⟩, -⟩ := hout.frame
      simp only [hrun]
    | quiesce hphase hnone t hquiesced => cases hquiesced <;> rfl
    | receive wr rest hphase hresult t hreceived =>
      cases hreceived with
      | applied hstopped hparks t happlied => exact happlied.frame.2
      | _ => rfl
    | park wr =>
      obtain ⟨_, _, _, hpark⟩ := enterPark_eq s.run now wr
      rw [park, hpark]
    | _ => rfl
  | worker index act w hw t hworker => cases workerStepped_moved hworker <;> rfl
  | cancel | resolve | wake => rfl
  | stop => exact absurd rfl hfree

/-- The definition a run executes never changes. -/
theorem step_wf (hstep : Workflow.step e s ev = some t) : t.run.wf = s.run.wf := by
  cases step_cases hstep with
  | sched now t hsched =>
    rcases hsched.kept_or_parks with ⟨hkept, -⟩ | ⟨wr, -, -, rfl⟩
    · exact hkept.wf
    · obtain ⟨_, _, _, hpark⟩ := enterPark_eq s.run now wr
      rw [park, hpark]
  | worker index act w hw t hworker => cases workerStepped_moved hworker <;> rfl
  | cancel | stop | resolve | wake => rfl

theorem WellFormed.drained (hs : WellFormed s) (hnone : s.inFlight = 0) :
    s.workers = [] ∧ s.resultCh = [] := by
  have hcount := hs.count
  exact ⟨eq_nil_of_length_eq_zero (by omega), eq_nil_of_length_eq_zero (by omega)⟩

/-- Nothing is in flight while a run is parked, so no worker moves. -/
theorem WellFormed.no_worker (hs : WellFormed s) (hphase : s.phase.driving = false)
    (hw : s.workers[index]? = some w) : False := by
  simp [(hs.drained (hs.quiet hphase)).1] at hw

end Kept

/-! ## Steps in flight -/

/-- The steps whose result the loop has not taken yet, by id. -/
def DriveState.inFlightIDs (s : DriveState) : List String :=
  s.workers.map (fun w => w.step.id) ++ s.resultCh.map fun wr => wr.step.id

section InFlight

variable {e : Engine} {s t : DriveState}

theorem WellFormed.inFlightIDs_eq_nil (hs : WellFormed s) (hnone : s.inFlight = 0) :
    s.inFlightIDs = [] := by
  obtain ⟨hworkers, hresults⟩ := hs.drained hnone
  rw [inFlightIDs, hworkers, hresults]
  rfl

theorem push_inFlightIDs (s : DriveState) {step : StepConfig} (hid : step.id = id)
    (res : StepResult) : (s.push step id res).inFlightIDs.Perm (id :: s.inFlightIDs) := by
  rw [inFlightIDs, push, map_append, map_singleton, hid, ← append_assoc]
  exact perm_append_singleton _ _

theorem spawn_inFlightIDs (s : DriveState) {step : StepConfig} (hid : step.id = id) :
    (s.spawn step id).inFlightIDs.Perm (id :: s.inFlightIDs) := by
  rw [inFlightIDs, spawn, map_append, map_singleton, launch_step, hid]
  exact (perm_append_singleton _ _).append_right _

theorem take_inFlightIDs {s : DriveState} {wr : WorkerResult} {rest : List WorkerResult}
    (hresult : s.resultCh = wr :: rest) :
    s.inFlightIDs.Perm (wr.step.id :: (s.take rest).inFlightIDs) := by
  rw [inFlightIDs, hresult, map_cons]
  exact perm_middle

/-- The steps of a worker leave its step in flight. -/
theorem workerStepped_inFlightIDs (hw : s.workers[index]? = some w)
    (hstep : WorkerStepped e s index w act t) : t.inFlightIDs.Perm s.inFlightIDs := by
  obtain ⟨hindex, rfl⟩ := List.getElem?_eq_some_iff.mp hw
  cases workerStepped_moved hstep with
  | unit unit phase =>
    have hsame : (s.workers.set index (s.workers[index].setUnit unit phase)).map
        (fun w => w.step.id) = s.workers.map fun w => w.step.id := by
      rw [map_set]
      refine Eq.trans ?_ (set_getElem_self (i := index) (by simpa using hindex))
      simp [Worker.setUnit]
    rw [inFlightIDs, hsame]
    rfl
  | deliver =>
    have hperm := (getElem_cons_eraseIdx_perm hindex).map fun w => w.step.id
    rw [inFlightIDs, map_append, map_singleton, result_step, ← append_assoc]
    refine (perm_append_singleton _ _).trans ?_
    rw [← cons_append]
    exact hperm.append_right _

end InFlight

/-! ## Starts -/

/-- Nothing is active, skipped or failed: each step is undeclared, pending or
passed. -/
def Rested (state : StateMap) : Prop :=
  ∀ id, state id = none ∨ state id = some .pending ∨ state id = some .passed

theorem Rested.ne {state : StateMap} (hrested : Rested state) {st : Status}
    (hpending : st ≠ .pending) (hpassed : st ≠ .passed) (id : String) : state id ≠ some st := by
  intro hstate
  rcases hrested id with hnone | hold | hold
  · nomatch hstate.symm.trans hnone
  · exact hpending (some.inj (hstate.symm.trans hold))
  · exact hpassed (some.inj (hstate.symm.trans hold))

section Start

variable (instID : String) (wf : WorkflowConfig) (cell : SourceItem)

theorem initDAG_rested (seed : List MemoryStep) (event : String → Option String) :
    Rested (initDAG instID wf cell seed event).state := by
  intro id
  by_cases hid : id ∈ order wf <;> simp [initDAG, hid]

theorem initDAG_declared (seed : List MemoryStep) (event : String → Option String)
    (hid : id ∈ order wf) : (initDAG instID wf cell seed event).state id ≠ none := by
  simp [initDAG, hid]

theorem restored_rested (rows : List StepRun) :
    Rested (restoreCachedSteps (initDAG instID wf cell [] fun _ => none) rows).state := by
  intro id
  have hrestores := restoreCachedSteps_restores rows (initDAG instID wf cell [] fun _ => none)
  rcases hrestores.passing id with hsame | ⟨st, hstate, hst⟩
  · rw [hsame]
    exact initDAG_rested instID wf cell [] (fun _ => none) id
  · exact .inr (.inr (hst ▸ hstate))

theorem restored_declared (rows : List StepRun)
    (hid : id ∈ order (restoreCachedSteps (initDAG instID wf cell [] fun _ => none) rows).wf) :
    (restoreCachedSteps (initDAG instID wf cell [] fun _ => none) rows).state id ≠ none := by
  have hrestores := restoreCachedSteps_restores rows (initDAG instID wf cell [] fun _ => none)
  rw [hrestores.wf] at hid
  exact hrestores.passing.ne_none (initDAG_declared instID wf cell [] (fun _ => none) hid)

end Start

/-- How a drive starts: at the top of the loop or parked at a step, with nothing
in flight and no other step active. -/
inductive Started : DriveState → Prop where
  | top (r : DagRun) (rows : List StepRun) (nextRow : ℕ) (hrested : Rested r.state)
      (hdeclared : ∀ id ∈ order r.wf, r.state id ≠ none) :
      Started { run := r, rows := rows, nextRow := nextRow }
  | parked (r t : DagRun) (rows : List StepRun) (nextRow : ℕ) (id : String)
      (hrested : Rested r.state) (hdeclared : ∀ id ∈ order r.wf, r.state id ≠ none)
      (hwf : t.wf = r.wf) (hstate : t.state = update r.state id (some .waiting))
      (hstep : t.waitingStep = id) :
      Started { run := t, phase := .parked, rows := rows, nextRow := nextRow }

theorem Initial.started (hinit : Initial s) : Started s := by
  cases hinit with
  | fresh instID wf cell seed event =>
    exact .top _ [] 0 (initDAG_rested instID wf cell seed event)
      fun id hid => initDAG_declared instID wf cell seed event hid
  | resumed instID wf cell selected =>
    exact .top _ _ _ (restored_rested instID wf cell selected)
      fun id hid => restored_declared instID wf cell selected hid
  | approval instID wf cell prior parkedAt nextRow s hpark =>
    simp only [rehydrateApproval, map_eq_some_iff] at hpark
    obtain ⟨id, -, rfl⟩ := hpark
    exact .parked _ _ _ _ id (restored_rested instID wf cell prior)
      (fun id hid => restored_declared instID wf cell prior hid) rfl rfl rfl
  | wait instID wf cell prior now nextRow s hpark =>
    simp only [rehydrateWait, map_eq_some_iff] at hpark
    obtain ⟨park, -, rfl⟩ := hpark
    exact .parked _ _ _ _ park.1 (restored_rested instID wf cell prior)
      (fun id hid => restored_declared instID wf cell prior hid) rfl rfl rfl

theorem Initial.not_stopped (hinit : Initial s) : s.run.stopped = false := by
  cases hinit with
  | fresh => rfl
  | resumed instID wf cell selected => exact (restoreCachedSteps_restores selected _).stopped
  | approval instID wf cell prior parkedAt nextRow s hpark =>
    simp only [rehydrateApproval, map_eq_some_iff] at hpark
    obtain ⟨id, -, rfl⟩ := hpark
    exact (restoreCachedSteps_restores prior _).stopped
  | wait instID wf cell prior now nextRow s hpark =>
    simp only [rehydrateWait, map_eq_some_iff] at hpark
    obtain ⟨park, -, rfl⟩ := hpark
    exact (restoreCachedSteps_restores prior _).stopped

/-- No step has a status that a start does not give. -/
theorem Started.state_ne (hstarted : Started s) (st : Status) (hpending : st ≠ .pending)
    (hpassed : st ≠ .passed) (hwaiting : Status.waiting ≠ st) (id : String) :
    s.run.state id ≠ some st := by
  cases hstarted with
  | top r rows nextRow hrested => exact hrested.ne hpending hpassed id
  | parked r t rows nextRow other hrested hdeclared hwf hstate =>
    intro hid
    have hchange : ChangesTo (fun st' => st' ≠ st) r.state t.state :=
      hstate ▸ ChangesTo.update r.state other hwaiting
    exact hrested.ne hpending hpassed id (hchange.of_not_allowed (by simp) hid)

theorem Started.wellFormed (hstarted : Started s) : WellFormed s := by
  cases hstarted with
  | top r rows nextRow hrested hdeclared =>
    have hwaiting : ∀ id, r.state id ≠ some .waiting := hrested.ne (by decide) (by decide)
    exact ⟨rfl, hdeclared, fun id h => absurd h (hwaiting id), by simp, by simp, by simp,
      by simp, by simp [driving], by simp, by simp⟩
  | parked r t rows nextRow id hrested hdeclared hwf hstate hstep =>
    refine ⟨rfl, ?_, ?_, by simp, by simp, by simp, by simp, by simp, by simp, by simp⟩
    · intro other hother
      rw [hwf] at hother
      rw [hstate]
      by_cases heq : other = id
      · simp [heq]
      · rw [update_of_ne heq]
        exact hdeclared other hother
    · intro other hother
      by_cases heq : other = id
      · exact ⟨rfl, heq.trans hstep.symm⟩
      · rw [hstate, update_of_ne heq] at hother
        exact absurd hother (hrested.ne (by decide) (by decide) other)

end Apiary.Workflow
