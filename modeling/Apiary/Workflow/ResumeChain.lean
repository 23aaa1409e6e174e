import Apiary.Workflow.Invariants
import Apiary.Workflow.Rows

/-!
# Chains of resumes

A resume starts a descendant from the rows of a failed or interrupted instance, and
the descendant can be resumed in its turn.  The descendant writes the rows it carries
over down as skipped, and a resume restores done rows only, so what one resume carries
over is lost to the next.
-/

namespace Apiary.Workflow

open Config List Option Machine Function

variable {id : String} {wf : WorkflowConfig} {selected : List StepRun}

/-! ## The chain -/

/-- The instance at the end of a chain, with the agent steps that were carried over on
the way to it and that no `from_step` has asked for since. -/
structure ChainState where
  drive : DriveState
  carried : List String := []

/-- A resume reads the current definition of the workflow or that of the instance it
continues. -/
inductive ChainEvent where
  | run (ev : Event)
  | resume (instID : String) (wf : WorkflowConfig) (fromStep : String)

/-- `from_step` names the step or one declared before it. -/
def named (wf : WorkflowConfig) (fromStep id : String) : Bool :=
  fromStep ≠ "" && id ∈ order wf && !declaredBefore wf fromStep id

/-- The agent steps among the rows that a resume restores. -/
def carriedOver (wf : WorkflowConfig) (selected : List StepRun) : List String :=
  ((selected.filter (restores wf)).map StepRun.stepID).filter fun id => (byID wf id).type = .agent

/-- `resumableState`: a failed instance, or one that a stop or a restart of the daemon
interrupted, which can be at any point of its run. -/
def Phase.resumable : Phase → Bool
  | .ended .done => false
  | _ => true

def chainStep (e : Engine) (c : ChainState) : ChainEvent → Option ChainState
  | .run ev => (step e c.drive ev).map fun t => { c with drive := t }
  | .resume instID wf fromStep =>
    if c.drive.phase.resumable then
      (resumeCacheSelection wf c.drive.rows fromStep).map fun selected =>
        { drive := seedResume (initDAG instID wf c.drive.run.cell [] fun _ => none) selected
          carried := (c.carried.filter fun id => !named wf fromStep id) ++ carriedOver wf selected }
    else none

/-- A step that was carried over is executed. -/
def ChainState.Reexecutes (c : ChainState) : Prop := ∃ w ∈ c.drive.workers, w.step.id ∈ c.carried

/-- No loop-back resets a step that was carried over, and a resume finds a done row of
every such step that it does not ask for again. -/
def keepsCarried (c : ChainState) : ChainEvent → Bool
  | .run (.sched _) =>
    match c.drive.phase with
    | .check =>
      c.drive.inFlight ≠ 0 || c.drive.run.stopped || c.drive.termFail || c.drive.loopTarget = "" ||
        (resetSet c.drive.run.wf c.drive.loopTarget).all fun id => id ∉ c.carried
    | _ => true
  | .run _ => true
  | .resume _ wf fromStep =>
    c.carried.all fun id => named wf fromStep id || id ∉ order wf ||
      (id ∈ doneIDs c.drive.rows && restorable wf id)

/-! ## The invariant -/

/-- What the loop holds at each of its stages is not a step that was carried over. -/
def PhaseFree (carried : List String) (r : DagRun) : Phase → Prop
  | .dispatch ids => ∀ id ∈ ids, id ∉ carried
  | .drain wr => wr.step.id ∉ carried
  | .parked => r.waitingStep ∉ carried
  | _ => True

/-- The steps that were carried over stay settled, and none of them is in flight. -/
structure Cached (carried : List String) (s : DriveState) : Prop where
  settled : ∀ id ∈ carried, id ∈ order s.run.wf →
    s.run.state id = some .passed ∨ s.run.state id = some .skipped
  workers : ∀ w ∈ s.workers, w.step.id ∉ carried
  results : ∀ wr ∈ s.resultCh, wr.step.id ∉ carried
  phase : PhaseFree carried s.run s.phase

section Steps

variable {carried : List String} {e : Engine} {s t : DriveState}

variable (hc : Cached carried s)

include hc

/-- A change of the run that moves other steps only, or skips one. -/
theorem Cached.next (hwf : t.run.wf = s.run.wf)
    (hstate : ∀ id ∈ carried, t.run.state id = s.run.state id ∨ t.run.state id = some .skipped)
    (hworkers : ∀ w ∈ t.workers, w.step.id ∉ carried)
    (hresults : ∀ wr ∈ t.resultCh, wr.step.id ∉ carried) (hphase : PhaseFree carried t.run t.phase) :
    Cached carried t := by
  refine ⟨?_, hworkers, hresults, hphase⟩
  intro id hid horder
  rw [hwf] at horder
  rcases hstate id hid with heq | hskipped
  · rw [heq]
    exact hc.settled id hid horder
  · exact .inr hskipped

omit hc in
theorem update_carried {state : StateMap} (hfree : id ∉ carried) (st : Option Status) :
    ∀ other ∈ carried, update state id st other = state other := by
  intro other hother
  have hne : other ≠ id := fun heq => hfree (heq ▸ hother)
  exact Function.update_of_ne hne _ _

theorem Cached.move {phase : Phase} (hphase : PhaseFree carried s.run phase) :
    Cached carried { s with phase := phase } :=
  hc.next rfl (fun _ _ => .inl rfl) hc.workers hc.results hphase

theorem Cached.dispatched (hs : WellFormed s) {ids : List String}
    (hphase : s.phase = .dispatch (id :: ids)) {out : DriveState × Bool}
    (hout : Dispatched s (byID s.run.wf id) id out) :
    Cached carried { out.1 with phase := if out.2 then .check else .dispatch ids } := by
  have hself : (byID s.run.wf id).id = id := byID_id (hs.picked _ hphase mem_cons_self)
  have hpicked : PhaseFree carried s.run (.dispatch (id :: ids)) := hphase ▸ hc.phase
  have hfree : id ∉ carried := hpicked id mem_cons_self
  have hrest : PhaseFree carried s.run (.dispatch ids) :=
    fun other hother => hpicked other (mem_cons_of_mem _ hother)
  have hrunning : ∀ other ∈ carried,
      update s.run.state id (some .running) other = s.run.state other :=
    update_carried hfree _
  cases hout with
  | errored | asked =>
    refine hc.next rfl (fun other h => .inl (hrunning other h)) hc.workers
      (Table.forall_insert hc.results ?_) hrest
    rwa [hself]
  | condSkipped =>
    exact hc.next rfl (fun other h => .inl (update_carried hfree _ other h)) hc.workers
      hc.results hrest
  | routed chosen =>
    obtain ⟨state, hskips, heq⟩ := routeSplit_eq s.run (byID s.run.wf id) chosen
    rw [heq]
    refine hc.next rfl ?_ hc.workers hc.results hrest
    intro other hother
    rcases hskips other with hsame | ⟨hskipped, -⟩
    · rw [hself, update_carried hfree _ other hother] at hsame
      exact .inl hsame
    · exact .inr hskipped
  | full => exact hc.move trivial
  | spawned =>
    refine hc.next rfl (fun other h => .inl (hrunning other h))
      (Table.forall_insert hc.workers ?_) hc.results hrest
    rwa [launch_step, hself]

theorem Cached.quiesced
    (hguard : s.run.stopped = false → s.termFail = false → s.loopTarget ≠ "" →
      ∀ id ∈ resetSet s.run.wf s.loopTarget, id ∉ carried) (hstep : Quiesced s t) :
    Cached carried t := by
  cases hstep with
  | reset hstopped hfail hloop =>
    refine hc.next rfl ?_ hc.workers hc.results trivial
    intro id hid
    have hout : id ∉ resetSet s.run.wf s.loopTarget :=
      fun hin => hguard hstopped hfail hloop id hin hid
    exact .inl (if_neg hout)
  | skipped =>
    refine hc.next ?_ ?_ hc.workers hc.results trivial
    · rfl
    · intro id _
      exact (skipUnreachable_skips s.run id).imp_right fun h => h.1
  | _ => exact hc.move trivial

theorem Cached.received {wr : WorkerResult} {rest : List WorkerResult}
    (hresult : s.resultCh = wr :: rest) (hstep : Received e (s.take rest) wr t) :
    Cached carried t := by
  have hfree : wr.step.id ∉ carried := hc.results wr (by simp [hresult])
  have hrest : ∀ wr' ∈ rest, wr'.step.id ∉ carried :=
    fun wr' hwr' => hc.results wr' (by simp [hresult, hwr'])
  cases hstep with
  | dropped => exact hc.next rfl (fun _ _ => .inl rfl) hc.workers hrest trivial
  | parking => exact hc.next rfl (fun _ _ => .inl rfl) hc.workers hrest hfree
  | applied hstopped hparks t happlied =>
    obtain ⟨st, -, hstate⟩ := happlied.state_eq
    obtain ⟨_, _, _, rfl⟩ := happlied.eq
    refine hc.next happlied.frame.1 (fun id hid => ?_) hc.workers hrest trivial
    rw [hstate]
    exact .inl (update_carried hfree _ id hid)

theorem Cached.scheduled (hs : WellFormed s) {now : ℕ}
    (hguard : s.phase = .check → s.inFlight = 0 → s.run.stopped = false → s.termFail = false →
      s.loopTarget ≠ "" → ∀ id ∈ resetSet s.run.wf s.loopTarget, id ∉ carried)
    (hstep : SchedStepped e now s t) : Cached carried t := by
  cases hstep with
  | hold | picked | await => exact hc.move trivial
  | pick =>
    refine hc.move ?_
    intro id hid hcarried
    simp only [pickAllRunnable, mem_filter, Bool.and_eq_true, decide_eq_true_eq] at hid
    obtain ⟨horder, ⟨hpending, -⟩, -⟩ := hid
    rcases hc.settled id hcarried horder with h | h
    · simp [hpending] at h
    · simp [hpending] at h
  | dispatch id ids hphase out hout => exact hc.dispatched hs hphase hout
  | quiesce hphase hnone t hquiesced => exact hc.quiesced (hguard hphase hnone) hquiesced
  | receive wr rest hphase hresult t hreceived => exact hc.received hresult hreceived
  | discard wr dropped rest hphase hsome hresult =>
    refine hc.next rfl (fun _ _ => .inl rfl) hc.workers ?_ hc.phase
    exact fun wr' hwr' => hc.results wr' (hresult ▸ mem_cons_of_mem _ hwr')
  | park wr hphase =>
    have hfree : PhaseFree carried s.run (.drain wr) := hphase ▸ hc.phase
    obtain ⟨_, _, _, hpark⟩ := enterPark_eq s.run now wr
    rw [DriveState.park, hpark]
    exact hc.next rfl (fun id hid => .inl (update_carried hfree _ id hid)) hc.workers hc.results hfree

theorem Cached.worked {index : ℕ} {w : Worker} {act : WorkerAct} (hw : s.workers[index]? = some w)
    (hstep : WorkerStepped e s index w act t) : Cached carried t := by
  have hfree := hc.workers w (mem_of_getElem? hw)
  obtain ⟨hworkers, hresults⟩ := workerStepped_steps hstep hw
  obtain ⟨_, _, _, _, _, rfl⟩ := workerStepped_eq hstep
  refine hc.next rfl (fun _ _ => .inl rfl) ?_ ?_ hc.phase
  · intro w' hw'
    obtain ⟨w'', hmem, heq⟩ := hworkers w' hw'
    exact heq ▸ hc.workers w'' hmem
  · intro wr hwr
    rcases hresults wr hwr with hold | heq
    · exact hc.results wr hold
    · exact heq ▸ hfree

theorem Cached.step (hs : WellFormed s) {ev : Event}
    (hguard : keepsCarried ⟨s, carried⟩ (.run ev) = true) (hstep : step e s ev = some t) :
    Cached carried t := by
  cases step_cases hstep with
  | sched now t hsched =>
    refine hc.scheduled hs ?_ hsched
    intro hphase hnone hstopped hfail hloop
    simpa [keepsCarried, hphase, hnone, hstopped, hfail, hloop] using hguard
  | worker index act w hw t hworker => exact hc.worked hw hworker
  | cancel => exact hc.next rfl (fun _ _ => .inl rfl) hc.workers hc.results hc.phase
  | stop =>
    refine hc.next rfl (fun _ _ => .inl rfl) hc.workers hc.results ?_
    have hphase := hc.phase
    dsimp only
    cases hat : s.phase <;> rw [hat] at hphase <;> exact hphase
  | resolve approve memory hphase | wake hphase =>
    have hfree : PhaseFree carried s.run .parked := hphase ▸ hc.phase
    exact hc.next rfl (fun id hid => .inl (update_carried hfree _ id hid)) hc.workers
      hc.results trivial

end Steps

/-! ## Resumes -/

theorem mem_doneIDs_selected {prior : List StepRun} {fromStep : String}
    (hselected : resumeCacheSelection wf prior fromStep = some selected) (horder : id ∈ order wf)
    (hnamed : named wf fromStep id = false) (hdone : id ∈ doneIDs prior) :
    id ∈ doneIDs selected := by
  rw [resumeCacheSelection] at hselected
  split at hselected
  · exact some.inj hselected ▸ hdone
  · rename_i hfrom
    obtain ⟨-, hselected⟩ := ite_none_right_eq_some.mp hselected
    rw [some.injEq] at hselected
    have hbefore : declaredBefore wf fromStep id = true := by
      simpa [named, hfrom, horder] using hnamed
    obtain ⟨row, hrow, hstate, rfl⟩ := mem_doneIDs.mp hdone
    rw [← hselected]
    exact mem_doneIDs.mpr ⟨row, mem_filter.mpr ⟨hrow, hbefore⟩, hstate, rfl⟩

theorem carriedOver_restored (hid : id ∈ carriedOver wf selected) :
    id ∈ doneIDs selected ∧ restorable wf id = true := by
  obtain ⟨hid, -⟩ := mem_filter.mp hid
  obtain ⟨row, hrow, rfl⟩ := List.mem_map.mp hid
  obtain ⟨hmem, hrestores⟩ := mem_filter.mp hrow
  rw [restores, Bool.and_eq_true, decide_eq_true_eq] at hrestores
  exact ⟨mem_doneIDs.mpr ⟨row, hmem, hrestores.1, rfl⟩, hrestores.2⟩

theorem chainStep_cached {e : Engine} {c d : ChainState} {ev : ChainEvent}
    (hc : WellFormed c.drive ∧ Cached c.carried c.drive) (hguard : keepsCarried c ev = true)
    (hstep : chainStep e c ev = some d) : WellFormed d.drive ∧ Cached d.carried d.drive := by
  cases ev with
  | run =>
    obtain ⟨t, ht, rfl⟩ := map_eq_some_iff.mp hstep
    exact ⟨hc.1.step ht, hc.2.step hc.1 hguard ht⟩
  | resume instID wf fromStep =>
    obtain ⟨-, hstep⟩ := ite_none_right_eq_some.mp hstep
    obtain ⟨selected, hselected, rfl⟩ := map_eq_some_iff.mp hstep
    have hinit : Initial (seedResume (initDAG instID wf c.drive.run.cell [] fun _ => none)
      selected) := .resumed instID wf c.drive.run.cell selected
    refine ⟨hinit.started.wellFormed, ?_, by simp [seedResume], by simp [seedResume], trivial⟩
    intro id hid horder
    left
    have hwf : order (restoreCachedSteps (initDAG instID wf c.drive.run.cell [] fun _ => none)
        selected).wf = order wf := by
      rw [(restoreCachedSteps_restores selected _).wf]
      rfl
    have horder : id ∈ order wf := hwf ▸ horder
    refine (restored_state _ selected id).mpr (.inr ?_)
    rcases mem_append.mp hid with hold | hnew
    · obtain ⟨hcarried, hnamed⟩ := mem_filter.mp hold
      have hnamed : named wf fromStep id = false := by simpa using hnamed
      have hkept := List.all_eq_true.mp hguard id hcarried
      simp only [hnamed, horder, not_true_eq_false, decide_false, Bool.or_false, Bool.false_or,
        Bool.and_eq_true, decide_eq_true_eq] at hkept
      exact ⟨mem_doneIDs_selected hselected horder hnamed hkept.1, hkept.2⟩
    · exact carriedOver_restored hnew

/-- In every chain of resumes, of any length and with any definitions and starting
steps, whose steps all keep what was carried over, no step that was carried over is
executed again. -/
theorem carried_not_reexecuted (e : Engine) {instID : String} {wf : WorkflowConfig}
    {cell : SourceItem} {seed : List MemoryStep} {event : String → Option String}
    {events : List ChainEvent} {c : ChainState}
    (hguarded : Machine.Guarded (chainStep e) (fun c ev => keepsCarried c ev = true)
      { drive := { run := initDAG instID wf cell seed event } } events)
    (hrun : exec (chainStep e) { drive := { run := initDAG instID wf cell seed event } }
      events = some c) : ¬ c.Reexecutes := by
  have hinit : Initial { run := initDAG instID wf cell seed event } := .fresh instID wf cell seed event
  have hstart : Cached [] { run := initDAG instID wf cell seed event } :=
    ⟨by simp, by simp, by simp, trivial⟩
  have hkept : ∀ c ev d, (WellFormed c.drive ∧ Cached c.carried c.drive) →
      keepsCarried c ev = true → chainStep e c ev = some d →
      WellFormed d.drive ∧ Cached d.carried d.drive :=
    fun c ev d hc hguard hstep => chainStep_cached hc hguard hstep
  have hcached := exec_invariant hkept ⟨hinit.started.wellFormed, hstart⟩ hguarded hrun
  rintro ⟨w, hw, hcarried⟩
  exact hcached.2.workers w hw hcarried

/-! ## A delivery workflow

A plan is followed by an implementation, which keeps failing. -/

def deliverWorkflow : WorkflowConfig where
  id := "deliver"
  steps := [{ id := "plan" }, { id := "code", seqDependsOn := ["plan"] }]

def deliverStart : ChainState :=
  { drive := { run := initDAG "wf-1" deliverWorkflow {} [] fun _ => none } }

/-- The first runnable step is dispatched. -/
def dispatchNext : List ChainEvent := List.replicate 4 (.run (.sched 0))

/-- The step in flight reports, and the loop takes its result. -/
def report (res : StepResult) : List ChainEvent := (runWorker 0 res ++ [Event.sched 0]).map .run

/-- The plan passes and the implementation fails; the instance is resumed. -/
def firstResume : List ChainEvent :=
  dispatchNext ++ report { success := true } ++ dispatchNext ++ report { output := "no luck" } ++
    List.replicate 2 (.run (.sched 0)) ++ [.resume "wf-2" deliverWorkflow ""] ++ dispatchNext

/-- The implementation fails in the descendant too, which is resumed in its turn. -/
def secondResume : List ChainEvent :=
  firstResume ++ report { output := "no luck" } ++ List.replicate 2 (.run (.sched 0)) ++
    [.resume "wf-3" deliverWorkflow ""] ++ dispatchNext

/-- The first resume carries the plan over and goes on with the implementation. -/
theorem deliver_firstResume_kept :
    ∃ c, exec (chainStep (plainEngine 2)) deliverStart firstResume = some c ∧
      c.carried = ["plan"] ∧ (c.drive.workers.map fun w => w.step.id) = ["code"] ∧
      ¬ c.Reexecutes := by
  refine ⟨_, exec_get (by decide), by decide, by decide, ?_⟩
  exact carried_not_reexecuted (plainEngine 2) (by decide) (exec_get _)

/-- The second resume finds only the skipped copy of the plan's row and runs the plan
again. -/
theorem deliver_secondResume_reexecutes :
    ∃ c, exec (chainStep (plainEngine 2)) deliverStart secondResume = some c ∧
      c.carried = ["plan"] ∧ c.Reexecutes := by
  exact ⟨_, exec_get (by decide), by decide, _, mem_cons_self, by decide⟩

end Apiary.Workflow
