import Apiary.Config.Validate
import Apiary.Workflow.Invariants

/-!
# Sensitive steps and their approvals

`settings.approvals.require_for` lists action classes whose steps must not start
before an approval with named approvers has passed.  Validation checks this on
the configuration; here it is stated about runs, over the recorded history, and
proved for the configurations whose gates the scheduler really enforces.
-/

namespace Apiary.Workflow

open Config List Function Machine DriveState
open Bool (or_eq_true and_eq_true)

def requiresApproval (requireFor : List String) (s : StepConfig) : Bool :=
  s.actionClass ≠ "" && s.actionClass ∈ requireFor

/-- Whether `gate` was approved and neither it nor the step `id` has been reset by
a loop-back since (newest mark first). -/
def gateOpen (id gate : String) : List Mark → Bool
  | [] => false
  | .approved approved :: before => approved = gate || gateOpen id gate before
  | .reset ids :: before => id ∉ ids && gate ∉ ids && gateOpen id gate before
  | .started _ :: before => gateOpen id gate before

def hasOpenGate (wf : WorkflowConfig) (id : String) (history : List Mark) : Bool :=
  wf.steps.any fun g => g.isNamedApproval && gateOpen id g.id history

/-- Every start of a step of a listed class came after an approval by named
approvers that still counts. -/
def approvedStarts (requireFor : List String) (wf : WorkflowConfig) : List Mark → Bool
  | [] => true
  | .started s :: before =>
    (!requiresApproval requireFor s || hasOpenGate wf s.id before) &&
      approvedStarts requireFor wf before
  | .approved _ :: before => approvedStarts requireFor wf before
  | .reset _ :: before => approvedStarts requireFor wf before

/-! ## Configurations whose gates are enforced -/

/-- The steps a step runs inside itself. -/
def nestedSteps (s : StepConfig) : List StepConfig :=
  match s.type with
  | .parallel => s.subSteps
  | .foreach => s.step.toList
  | _ => []

/-- A gate the scheduler enforces: the step depends on it in a way that a false
condition cannot satisfy, and no loop-back resets the step without the gate. -/
def hardGate (wf : WorkflowConfig) (s g : StepConfig) : Bool :=
  g.isNamedApproval && (g.id ∈ s.dependsOn || (g.id ∈ s.seqDependsOn && g.condition = "")) &&
    (loopTargets wf).all fun target => s.id ∉ resetSet wf target || g.id ∈ resetSet wf target

/-- No nested step has a listed class, and every declared one that has is behind a
hard gate. -/
def gatesEnforced (requireFor : List String) (wf : WorkflowConfig) : Bool :=
  wf.steps.all fun s =>
    (nestedSteps s).all (fun n => !requiresApproval requireFor n) &&
      (!requiresApproval requireFor s || wf.steps.any fun g => hardGate wf s g)

section History

variable {id gate : String} {history : List Mark}

/-- A gate that still counts for itself counts for every step that no loop-back
reset without it. -/
theorem gateOpen_of_self (hself : gateOpen gate gate history = true)
    (hresets : ∀ ids, Mark.reset ids ∈ history → id ∈ ids → gate ∈ ids) :
    gateOpen id gate history = true := by
  induction history with
  | nil => cases hself
  | cons mark before ih =>
    have hbefore : ∀ ids, Mark.reset ids ∈ before → id ∈ ids → gate ∈ ids :=
      fun ids hids => hresets ids (mem_cons_of_mem _ hids)
    cases mark with
    | started => exact ih hself hbefore
    | approved =>
      simp only [gateOpen, or_eq_true] at hself ⊢
      exact hself.imp_right fun h => ih h hbefore
    | reset ids =>
      simp only [gateOpen, and_eq_true, decide_eq_true_eq] at hself ⊢
      have hid : id ∉ ids := fun hid => hself.1.2 (hresets ids mem_cons_self hid)
      exact ⟨⟨hid, hself.1.2⟩, ih hself.2 hbefore⟩

end History

/-! ## The invariant -/

/-- What the scheduler keeps true of sensitive steps. -/
structure Policed (requireFor : List String) (wf : WorkflowConfig) (s : DriveState) : Prop where
  wf_eq : s.run.wf = wf
  workers : ∀ w ∈ s.workers, requiresApproval requireFor w.step = true →
    hasOpenGate wf w.step.id s.history = true
  picked : ∀ ids, s.phase = .dispatch ids → ∀ id ∈ ids,
    requiresApproval requireFor (byID wf id) = true → hasOpenGate wf (byID wf id).id s.history = true
  passed : ∀ g ∈ wf.steps, g.type = .approval → s.run.state g.id = some .passed →
    gateOpen g.id g.id s.history = true
  condSkipped : ∀ id ∈ order wf, s.run.state id = some .condSkipped → (byID wf id).condition ≠ ""
  starts : approvedStarts requireFor wf s.history = true

section Steps

variable {requireFor : List String} {wf : WorkflowConfig} {e : Engine} {s t : DriveState}

variable (hp : Policed requireFor wf s)

include hp

/-- A start recorded with its gate open. -/
theorem Policed.began {c : StepConfig}
    (hgate : requiresApproval requireFor c = true → hasOpenGate wf c.id s.history = true) :
    Policed requireFor wf (s.began c) where
  wf_eq := hp.wf_eq
  workers := hp.workers
  picked := hp.picked
  passed := hp.passed
  condSkipped := hp.condSkipped
  starts := by
    simp only [DriveState.began, approvedStarts, and_eq_true, or_eq_true]
    refine ⟨?_, hp.starts⟩
    cases hrequired : requiresApproval requireFor c with
    | false => exact Or.inl rfl
    | true => exact Or.inr (hgate hrequired)

theorem Policed.next (hwf : t.run.wf = s.run.wf) (hhistory : t.history = s.history)
    (hworkers : ∀ w ∈ t.workers, ∃ w' ∈ s.workers, w'.step = w.step)
    (hpicked : ∀ ids, t.phase = .dispatch ids → ∀ id ∈ ids,
      requiresApproval requireFor (byID wf id) = true →
        hasOpenGate wf (byID wf id).id s.history = true)
    (hpassed : ∀ g ∈ wf.steps, g.type = .approval → t.run.state g.id = some .passed →
      s.run.state g.id = some .passed)
    (hcond : ∀ id ∈ order wf, t.run.state id = some .condSkipped →
      s.run.state id = some .condSkipped ∨ (byID wf id).condition ≠ "") :
    Policed requireFor wf t where
  wf_eq := hwf.trans hp.wf_eq
  workers := by
    intro w hw hrequired
    obtain ⟨w', hw', hstep⟩ := hworkers w hw
    rw [hhistory, ← hstep]
    exact hp.workers w' hw' (hstep ▸ hrequired)
  picked := hhistory.symm ▸ hpicked
  passed := by
    intro g hg htype hstate
    rw [hhistory]
    exact hp.passed g hg htype (hpassed g hg htype hstate)
  condSkipped := by
    intro id hid hstate
    rcases hcond id hid hstate with hold | hne
    · exact hp.condSkipped id hid hold
    · exact hne
  starts := hhistory.symm ▸ hp.starts

variable (hs : WellFormed s)

include hs

theorem Policed.runnable_gate (hnodup : (wf.steps.map StepConfig.id).Nodup)
    (henforced : gatesEnforced requireFor wf = true) {id : String}
    (hid : id ∈ pickAllRunnable wf s.run.state s.run.activated)
    (hrequired : requiresApproval requireFor (byID wf id) = true) :
    hasOpenGate wf (byID wf id).id s.history = true := by
  have horder : id ∈ order wf := mem_order_of_mem_pickAllRunnable hid
  have hstep : byID wf id ∈ wf.steps := byID_mem horder
  have hdeps : depsPassed wf s.run.state id = true := by
    have hpick := (mem_filter.mp hid).2
    simp only [and_eq_true] at hpick
    exact hpick.2
  have hhard : ∃ g ∈ wf.steps, hardGate wf (byID wf id) g = true := by
    have hall := all_eq_true.mp henforced (byID wf id) hstep
    simpa [hrequired] using (Bool.and_eq_true_iff.mp hall).2
  obtain ⟨g, hg, hgate⟩ := hhard
  simp only [hardGate, and_eq_true, or_eq_true, decide_eq_true_eq] at hgate
  obtain ⟨⟨hnamed, hedge⟩, htargets⟩ := hgate
  have htype : g.type = .approval := by
    simp only [StepConfig.isNamedApproval, and_eq_true, decide_eq_true_eq] at hnamed
    exact hnamed.1
  have hself := byID_of_nodup hnodup hg
  simp only [depsPassed, and_eq_true, all_eq_true, or_eq_true, decide_eq_true_eq] at hdeps
  have hpassed : s.run.state g.id = some .passed := by
    rcases hedge with hdep | ⟨hdep, hcond⟩
    · exact hdeps.1 g.id hdep
    · rcases hdeps.2 g.id hdep with hpassed | hskipped
      · exact hpassed
      · have hne := hp.condSkipped g.id (mem_map_of_mem hg) hskipped
        rw [hself] at hne
        exact absurd hcond hne
  have hopen : gateOpen (byID wf id).id g.id s.history = true := by
    apply gateOpen_of_self (hp.passed g hg htype hpassed)
    intro ids hids hmem
    obtain ⟨target, htarget, rfl⟩ := hs.resets ids hids
    rw [hp.wf_eq] at htarget hmem ⊢
    have hcovers := all_eq_true.mp htargets target htarget
    simpa [hmem] using hcovers
  exact any_eq_true.mpr ⟨g, hg, by rw [hnamed, hopen]; rfl⟩

omit hs in
theorem Policed.move (hwf : t.run.wf = s.run.wf) (hhistory : t.history = s.history)
    (hworkers : t.workers = s.workers)
    (hpicked : ∀ ids, t.phase = .dispatch ids → ∀ id ∈ ids,
      requiresApproval requireFor (byID wf id) = true →
        hasOpenGate wf (byID wf id).id s.history = true)
    (hstate : ChangesTo (fun st => st ≠ .passed ∧ st ≠ .condSkipped) s.run.state t.run.state) :
    Policed requireFor wf t := by
  refine hp.next hwf hhistory (fun w hw => ⟨w, hworkers ▸ hw, rfl⟩) hpicked ?_ ?_
  · exact fun g _ _ hpassed => hstate.of_not_allowed (by simp) hpassed
  · exact fun id _ hskipped => Or.inl (hstate.of_not_allowed (by simp) hskipped)

theorem Policed.dispatched (hnodup : (wf.steps.map StepConfig.id).Nodup) {id : String}
    {ids : List String} (hphase : s.phase = .dispatch (id :: ids)) {out : DriveState × Bool}
    (hout : Dispatched s (byID s.run.wf id) id out) :
    Policed requireFor wf { out.1 with phase := if out.2 then .check else .dispatch ids } := by
  rw [hp.wf_eq] at hout
  have hid : id ∈ order wf := by
    rw [← hp.wf_eq]
    exact hs.picked _ hphase mem_cons_self
  have hself : (byID wf id).id = id := byID_id hid
  have hgate := hp.picked _ hphase id mem_cons_self
  have hbegan := hp.began hgate
  have hpicked : ∀ ids', Phase.dispatch ids = .dispatch ids' → ∀ id ∈ ids',
      requiresApproval requireFor (byID wf id) = true →
        hasOpenGate wf (byID wf id).id s.history = true := by
    intro ids' heq id' hid'
    rw [Phase.dispatch.injEq] at heq
    exact hp.picked _ hphase id' (mem_cons_of_mem _ (heq ▸ hid'))
  have hrunning : ChangesTo (fun st => st ≠ .passed ∧ st ≠ .condSkipped) s.run.state
      (Function.update s.run.state id (some .running)) := ChangesTo.update _ _ (by decide)
  cases hout with
  | errored => exact hp.move rfl rfl rfl hpicked hrunning
  | asked => exact hbegan.move rfl rfl rfl hpicked hrunning
  | condSkipped hcond =>
    refine hp.next rfl rfl (fun w hw => ⟨w, hw, rfl⟩) hpicked ?_ ?_
    · intro g _ _ hpassed
      have hchange : ChangesTo (fun st => st = .condSkipped) s.run.state
          (s.run.markCondSkipped id).state := ChangesTo.update _ _ rfl
      exact hchange.of_not_allowed (by simp) hpassed
    · intro other _ hskipped
      by_cases heq : other = id
      · exact Or.inr (heq ▸ hcond)
      · left
        change Function.update s.run.state id (some .condSkipped) other = _ at hskipped
        rwa [update_of_ne heq] at hskipped
  | routed chosen htype =>
    obtain ⟨state, hskips, heq⟩ := routeSplit_eq s.run (byID wf id) chosen
    have hstate := hskips.changes
    rw [heq]
    refine hbegan.next rfl rfl (fun w hw => ⟨w, hw, rfl⟩) hpicked ?_ ?_
    · intro g hg happroval hpassed
      have hold := hstate.of_not_allowed (by simp) hpassed
      have hne : g.id ≠ (byID wf id).id := by
        intro hsame
        have hinj := inj_on_of_nodup_map hnodup hg (byID_mem hid) hsame
        rw [← hinj, happroval] at htype
        cases htype
      rwa [update_of_ne hne] at hold
    · intro other _ hskipped
      left
      have hold := hstate.of_not_allowed (by simp) hskipped
      by_cases hsame : other = (byID wf id).id
      · rw [hsame, update_self] at hold
        cases hold
      · rwa [update_of_ne hsame] at hold
  | full => exact hp.move rfl rfl rfl (by simp) (ChangesTo.refl _)
  | spawned =>
    refine ⟨hp.wf_eq, ?_, hpicked, ?_, ?_, hbegan.starts⟩
    · refine Table.forall_insert hp.workers ?_
      rwa [launch_step]
    · intro g hg htype hpassed
      exact hp.passed g hg htype (hrunning.of_not_allowed (by simp) hpassed)
    · intro other hother hskipped
      exact hp.condSkipped other hother (hrunning.of_not_allowed (by simp) hskipped)

theorem Policed.reset (hnone : s.inFlight = 0) :
    Policed requireFor wf
      { s with
        run := s.run.resetLoop s.loopTarget
        history := .reset (resetSet s.run.wf s.loopTarget) :: s.history
        loopTarget := ""
        phase := .top } := by
  have hchange := resetLoop_changes s.run s.loopTarget
  refine ⟨hp.wf_eq, ?_, by simp, ?_, ?_, hp.starts⟩
  · intro w hw
    change w ∈ s.workers at hw
    rw [(hs.drained hnone).1] at hw
    exact absurd hw not_mem_nil
  · intro g hg htype hpassed
    have hout : g.id ∉ resetSet s.run.wf s.loopTarget := by
      intro hmem
      change (s.run.resetLoop s.loopTarget).state g.id = _ at hpassed
      simp [DagRun.resetLoop, hmem] at hpassed
    have hold := hp.passed g hg htype (hchange.of_not_allowed (by simp) hpassed)
    simp [gateOpen, hout, hold]
  · intro id hid hskipped
    exact hp.condSkipped id hid (hchange.of_not_allowed (by simp) hskipped)

theorem Policed.quiesced (hnone : s.inFlight = 0) (hstep : Quiesced s t) :
    Policed requireFor wf t := by
  cases hstep with
  | stopped | again | failed | ended => exact hp.move rfl rfl rfl (by simp) (ChangesTo.refl _)
  | reset => exact hp.reset hs hnone
  | skipped =>
    exact hp.move rfl rfl rfl (by simp)
      ((skipUnreachable_skips s.run).changes.mono (by simp))

theorem Policed.received {wr : WorkerResult} {rest : List WorkerResult}
    (hnodup : (wf.steps.map StepConfig.id).Nodup) (hresult : s.resultCh = wr :: rest)
    (hstep : Received e (s.take rest) wr t) : Policed requireFor wf t := by
  cases hstep with
  | dropped | parking => exact hp.move rfl rfl rfl (by simp) (ChangesTo.refl _)
  | applied hstopped hparks t happlied =>
    obtain ⟨st, hst, hstate⟩ := happlied.state_eq
    obtain ⟨_, _, _, rfl⟩ := happlied.eq
    have hdeclared : wr.step ∈ wf.steps := by
      rw [← hp.wf_eq]
      exact hs.results wr (by simp [hresult])
    have hnotApproval : wr.step.type ≠ .approval := by
      intro htype
      simp [parks, htype] at hparks
    refine hp.next happlied.frame.1 rfl (fun w hw => ⟨w, hw, rfl⟩) (by simp) ?_ ?_
    · intro g hg htype hpassed
      rw [hstate] at hpassed
      have hne : g.id ≠ wr.step.id := by
        intro hsame
        exact hnotApproval (inj_on_of_nodup_map hnodup hg hdeclared hsame ▸ htype)
      rwa [update_of_ne hne] at hpassed
    · intro id _ hskipped
      left
      rw [hstate] at hskipped
      by_cases hid : id = wr.step.id
      · rw [hid, update_self, Option.some.injEq] at hskipped
        rcases hst with rfl | rfl | rfl <;> cases hskipped
      · rwa [update_of_ne hid] at hskipped

variable (henforced : gatesEnforced requireFor wf = true)

include henforced

theorem Policed.scheduled (hnodup : (wf.steps.map StepConfig.id).Nodup) {now : ℕ}
    (hstep : SchedStepped e now s t) : Policed requireFor wf t := by
  have hmove : ∀ phase, (∀ ids, phase ≠ Phase.dispatch ids) →
      Policed requireFor wf { s with phase := phase } :=
    fun phase hphase => hp.move rfl rfl rfl
      (fun ids heq => absurd heq (hphase ids)) (ChangesTo.refl _)
  cases hstep with
  | hold | picked => exact hmove .check (by simp)
  | pick =>
    refine hp.move rfl rfl rfl ?_ (ChangesTo.refl _)
    intro ids heq id hid hrequired
    rw [Phase.dispatch.injEq, hp.wf_eq] at heq
    exact hp.runnable_gate hs hnodup henforced (heq ▸ hid) hrequired
  | dispatch id ids hphase out hout => exact hp.dispatched hs hnodup hphase hout
  | quiesce hphase hnone t hquiesced => exact hp.quiesced hs hnone hquiesced
  | await => exact hmove .recv (by simp)
  | receive wr rest hphase hresult t hreceived => exact hp.received hs hnodup hresult hreceived
  | discard wr dropped rest hphase =>
    exact hp.move rfl rfl rfl (by simp [DriveState.take, hphase])
      (ChangesTo.refl _)
  | park wr =>
    obtain ⟨_, _, _, hpark⟩ := enterPark_eq s.run now wr
    rw [park, hpark]
    exact hp.move rfl rfl rfl (by simp) (ChangesTo.update _ _ (by decide))

theorem unit_gate {w : Worker} (hw : w ∈ s.workers) {u : UnitRun} (hu : u ∈ w.units)
    (hrequired : requiresApproval requireFor u.step = true) :
    hasOpenGate wf u.step.id s.history = true := by
  have hof : w.Of wf := hp.wf_eq ▸ hs.workers w hw
  have hall := all_eq_true.mp henforced w.step hof.declared
  have hnested : ∀ n ∈ nestedSteps w.step, requiresApproval requireFor n = false := by
    simpa using all_eq_true.mp (Bool.and_eq_true_iff.mp hall).1
  have hunit := hof.units u hu
  rw [UnitOf] at hunit
  split at hunit
  · rename_i htype
    have hmem : u.step ∈ nestedSteps w.step := by simpa [nestedSteps, htype] using hunit
    exact absurd hrequired (by simp [hnested _ hmem])
  · rename_i htype
    obtain ⟨body, index, hbody, heq⟩ := hunit
    have hmem : body ∈ nestedSteps w.step := by simp [nestedSteps, htype, hbody]
    have hsame : requiresApproval requireFor u.step = requiresApproval requireFor body := by
      rw [heq]
      rfl
    rw [hsame, hnested body hmem] at hrequired
    cases hrequired
  · rw [hunit] at hrequired ⊢
    exact hp.workers w hw hrequired

theorem Policed.worked {index : ℕ} {w : Worker} {act : WorkerAct} (hw : s.workers[index]? = some w)
    (hstep : WorkerStepped e s index w act t) : Policed requireFor wf t := by
  have hmem : w ∈ s.workers := mem_of_getElem? hw
  have hrun : t.run = s.run := by cases workerStepped_moved hstep <;> rfl
  have hphase : t.phase = s.phase := by cases workerStepped_moved hstep <;> rfl
  obtain ⟨hworkers, -⟩ := workerStepped_steps hstep hw
  -- Only the start of a unit is recorded; the other actions leave the history alone.
  have hcarry : ∀ s' : DriveState, Policed requireFor wf s' → s'.run = s.run →
      s'.phase = s.phase → s'.workers = s.workers → t.history = s'.history →
        Policed requireFor wf t := by
    intro s' hp' hrun' hphase' hworkers' hhistory
    rw [← hrun'] at hrun
    refine hp'.next (by rw [hrun]) hhistory (hworkers' ▸ hworkers) ?_ ?_ ?_
    · rw [hphase, ← hphase']
      exact hp'.picked
    · exact fun g _ _ hpassed => hrun ▸ hpassed
    · exact fun id _ hskipped => .inl (hrun ▸ hskipped)
  cases hstep with
  | spawn | deliver => exact hcarry s hp rfl rfl rfl rfl
  | start unit u hunit =>
    by_cases hsupported : w.unsupported u = true
    · refine hcarry s hp rfl rfl rfl ?_
      simp [setUnit, startUnit, hsupported]
    · refine hcarry (s.began u.step) ?_ rfl rfl rfl ?_
      · exact hp.began (unit_gate hp hs henforced hmem (mem_of_getElem? hunit))
      · simp [DriveState.setUnit, DriveState.startUnit, hsupported, DriveState.began]
  | finish unit u row res =>
    obtain ⟨rows, heq⟩ := finishUnit_eq s w u row res
    exact hcarry s hp rfl rfl rfl (by rw [setUnit, heq])

omit henforced in
omit hs in
/-- An approval opens the gate it is recorded for and closes none. -/
theorem Policed.approved (id : String) :
    Policed requireFor wf { s with history := .approved id :: s.history } := by
  have hopen : ∀ other, hasOpenGate wf other s.history = true →
      hasOpenGate wf other (.approved id :: s.history) = true := by
    intro other hgate
    obtain ⟨g, hg, hboth⟩ := any_eq_true.mp hgate
    refine any_eq_true.mpr ⟨g, hg, ?_⟩
    simp only [gateOpen, and_eq_true, or_eq_true] at hboth ⊢
    exact ⟨hboth.1, Or.inr hboth.2⟩
  refine ⟨hp.wf_eq, ?_, ?_, ?_, hp.condSkipped, hp.starts⟩
  · exact fun w hw hrequired => hopen _ (hp.workers w hw hrequired)
  · exact fun ids hphase id hid hrequired => hopen _ (hp.picked ids hphase id hid hrequired)
  · intro g hg htype hpassed
    simp [gateOpen, hp.passed g hg htype hpassed]

omit henforced in
omit hs in
theorem Policed.resolved (approve : Bool) (memory : ApprovalMemory) :
    Policed requireFor wf
      { s with
        run := s.run.resolveApproval approve memory
        phase := .top
        ctxErr := none
        history := if approve then .approved s.run.waitingStep :: s.history else s.history } := by
  cases approve with
  | false =>
    exact hp.move rfl rfl rfl (by simp)
      (ChangesTo.update s.run.state s.run.waitingStep (by decide))
  | true =>
    have happroved := hp.approved s.run.waitingStep
    refine ⟨hp.wf_eq, happroved.workers, by simp, ?_, ?_, hp.starts⟩
    · intro g hg htype hpassed
      by_cases hid : g.id = s.run.waitingStep
      · simp [gateOpen, hid]
      · refine happroved.passed g hg htype ?_
        change Function.update s.run.state s.run.waitingStep (some .passed) g.id = _ at hpassed
        rwa [update_of_ne hid] at hpassed
    · intro id hid hskipped
      have hchange : ChangesTo (fun st => st = .passed) s.run.state
          (s.run.resolveApproval true memory).state := ChangesTo.update _ _ rfl
      exact hp.condSkipped id hid (hchange.of_not_allowed (by simp) hskipped)

theorem Policed.step (hnodup : (wf.steps.map StepConfig.id).Nodup) {ev : Event}
    (hstep : step e s ev = some t) : Policed requireFor wf t := by
  cases step_cases hstep with
  | sched now t hsched => exact hp.scheduled hs henforced hnodup hsched
  | worker index act w hw t hworker => exact hp.worked hs henforced hw hworker
  | cancel | stop => exact hp.move rfl rfl rfl hp.picked (ChangesTo.refl _)
  | resolve approve memory => exact hp.resolved approve memory
  | wake =>
    exact hp.move rfl rfl rfl (by simp)
      (ChangesTo.update s.run.state s.run.waitingStep (by decide))

end Steps

/-! ## Runs -/

theorem Started.policed {requireFor : List String} {s : DriveState} (hstarted : Started s)
    (happrovals : ∀ g ∈ s.run.wf.steps, g.type = .approval → s.run.state g.id ≠ some .passed) :
    Policed requireFor s.run.wf s := by
  have hskipped := hstarted.state_ne .condSkipped (by decide) (by decide) (by decide)
  cases hstarted <;>
    exact ⟨rfl, by simp, by simp, fun g hg htype hpassed => absurd hpassed (happrovals g hg htype),
      fun id _ h => absurd h (hskipped id), rfl⟩

/-- In every run of an accepted workflow whose gates are enforced, started with no
approval carried over, whatever the conditions, splits, groups, loop-backs and
interleaving, a step of a listed class starts only after an approval by named
approvers that no loop-back has undone since. -/
theorem sensitive_starts_approved (e : Engine) {ctx : String} {requireFor : List String}
    {s t : DriveState} {es : List Event} (hinit : Initial s)
    (hvalid : validateWorkflow ctx requireFor s.run.wf = [])
    (henforced : gatesEnforced requireFor s.run.wf = true)
    (happrovals : ∀ g ∈ s.run.wf.steps, g.type = .approval → s.run.state g.id ≠ some .passed)
    (hrun : exec (step e) s es = some t) :
    approvedStarts requireFor s.run.wf t.history = true := by
  have hnodup := validateWorkflow_nodup hvalid
  have hkept : ∀ s' ev s'', WellFormed s' ∧ Policed requireFor s.run.wf s' →
      step e s' ev = some s'' → WellFormed s'' ∧ Policed requireFor s.run.wf s'' := by
    intro s' ev s'' hs hstep
    exact ⟨hs.1.step hstep, hs.2.step hs.1 henforced hnodup hstep⟩
  have hinv := exec_invariant_of_step hkept
    ⟨hinit.started.wellFormed, hinit.started.policed happrovals⟩ hrun
  exact hinv.2.starts

/-! ## Two publishing workflows

One publishes behind a gate it depends on.  The other publishes from inside a
parallel group, where validation looks for no gate and the scheduler waits for
none. -/

def gatedPublish : WorkflowConfig where
  id := "gated-publish"
  steps :=
    [{ id := "review", type := .approval, approvers := ["alice"] },
     { id := "publish", dependsOn := ["review"], actionClass := "push" }]

def gatedPublishStart : DriveState := { run := initDAG "wf-1" gatedPublish {} [] fun _ => none }

/-- The review parks the run and is approved, and `publish` is started. -/
def reviewThenPublish : List Event :=
  List.replicate 6 (.sched 0) ++ [.resolve true {}] ++ List.replicate 2 (.sched 0) ++
    [.worker 0 (.start 0)]

theorem gatedPublish_starts_approved :
    ∃ t, exec (step (plainEngine 1)) gatedPublishStart reviewThenPublish = some t ∧
      t.history.length = 4 ∧ approvedStarts ["push"] gatedPublish t.history = true := by
  have hinit : Initial gatedPublishStart := Initial.fresh "wf-1" gatedPublish {} [] _
  have hvalid : validateWorkflow "workflow" ["push"] gatedPublishStart.run.wf = [] := by decide
  refine ⟨_, exec_get (by decide), by decide, ?_⟩
  exact sensitive_starts_approved (plainEngine 1) hinit hvalid (by decide) (by decide) (exec_get _)

def groupPublish : WorkflowConfig where
  id := "group-publish"
  steps :=
    [{ id := "release", type := .parallel,
       subSteps := [{ id := "push-image", actionClass := "push" }, { id := "notes" }] }]

def groupPublishStart : DriveState := { run := initDAG "wf-1" groupPublish {} [] fun _ => none }

/-- The group is dispatched and its first child starts. -/
def groupStarts : List Event := List.replicate 2 (.sched 0) ++ [.worker 0 (.start 0)]

/-- The configuration is accepted with `push` listed, and the group's child of that
class starts although the workflow has no approval step at all. -/
theorem groupPublish_starts_unapproved : validateWorkflow "workflow" ["push"] groupPublish = [] ∧
      (groupPublish.steps.all fun s => s.type ≠ .approval) = true ∧ Initial groupPublishStart ∧
      ∃ t, exec (step (plainEngine 2)) groupPublishStart groupStarts = some t ∧
        approvedStarts ["push"] groupPublish t.history = false := by
  exact ⟨by decide, by decide, Initial.fresh "wf-1" groupPublish {} [] _, _, exec_get (by decide),
    by decide⟩

end Apiary.Workflow
