import Apiary.Workflow.Restore

/-!
# What one step of the scheduler can do

Inversion lemmas for the machine of `driveDAG`.  Invariants are proved from
these and never by unfolding a step.
-/

namespace Apiary.Workflow

open Config Option DagRun Function

variable {e : Engine} {s t : DriveState} {wr : WorkerResult} {res : StepResult}

theorem launch_step (r : DagRun) (step : StepConfig) : (launch r step).step = step := by
  rw [launch]
  split
  · rfl
  · split <;> rfl
  · rfl

/-- What a group can report. -/
inductive Joined (e : Engine) (cell : SourceItem) (w : Worker) (results : List ChildResult) :
    WorkerResult → Prop where
  | empty (hnil : results = []) : Joined e cell w results
      { step := w.step, res := { success := true, summary := "parallel: no children" } }
  | waiting (hchild : (parallelState results).waitingChild ≠ "")
      (hopen : joinDecided w.step.join results = false) : Joined e cell w results
        { step := w.step, res := { pending := true }, parallel := parallelState results }
  | passed (hpolicy : applyJoinPolicy e w.step.join results cell w.memSnap = .ok true)
      (hended : (parallelState results).waitingChild = "" ∨ joinDecided w.step.join results = true) :
      Joined e cell w results
        { step := w.step, res := { success := true, summary := "parallel: joined" }
          parallelContribs := childContribs results, parallel := parallelState results }
  | failed (output : String)
      (hpolicy : applyJoinPolicy e w.step.join results cell w.memSnap ≠ .ok true)
      (hended : (parallelState results).waitingChild = "" ∨ joinDecided w.step.join results = true) :
      Joined e cell w results
        { step := w.step, res := { output := output }, parallel := parallelState results }

theorem joinParallel_joined (e : Engine) (cell : SourceItem) (w : Worker)
    (results : List ChildResult) : Joined e cell w results (joinParallel e cell w results) := by
  rw [joinParallel]
  split
  · exact .empty ‹_›
  · dsimp only
    split
    · rename_i hwaits
      have hwaits := (Bool.and_eq_true ..).mp hwaits
      exact .waiting (of_decide_eq_true hwaits.1) (Bool.not_eq_true' _ |>.mp hwaits.2)
    · rename_i hended
      have hended : (parallelState results).waitingChild = "" ∨
          joinDecided w.step.join results = true := by simpa [imp_iff_not_or] using hended
      split
      · exact .failed _ (by simp [*]) hended
      · exact .passed ‹_› hended
      · exact .failed "" (by simp [*]) hended

theorem joinParallel_step (e : Engine) (cell : SourceItem) (w : Worker)
    (results : List ChildResult) : (joinParallel e cell w results).step = w.step := by
  have hjoined := joinParallel_joined e cell w results
  generalize joinParallel e cell w results = wr at hjoined ⊢
  cases hjoined <;> rfl

theorem result_step (e : Engine) (cell : SourceItem) (w : Worker) :
    (w.result e cell).step = w.step := by
  rw [Worker.result]
  split
  · exact joinParallel_step e cell w _
  · split <;> rfl
  · rfl

theorem setState_of_ne (r : DagRun) {id other : String} (hne : other ≠ id) (status : Status) :
    (r.setState id status).state other = r.state other := Function.update_of_ne hne _ _

/-- The possible effects of dispatching one step. -/
inductive Dispatched (s : DriveState) (step : StepConfig) (id : String) :
    DriveState × Bool → Prop where
  | errored (output : String) : Dispatched s step id (s.push step id { output := output }, false)
  | asked (htype : step.type = .approval) :
      Dispatched s step id ((s.began step).push step id { success := true }, false)
  | condSkipped (hcond : step.condition ≠ "") :
      Dispatched s step id ({ s with run := s.run.markCondSkipped id }, false)
  | routed (chosen : List String) (htype : step.type = .split) :
      Dispatched s step id ({ s.began step with run := s.run.routeSplit step chosen }, false)
  | full : Dispatched s step id (s, true)
  | spawned (hsplit : step.type ≠ .split) (happroval : step.type ≠ .approval) :
      Dispatched s step id ((s.began step).spawn step id, false)

theorem Dispatched.changes {step : StepConfig} {id : String} {out : DriveState × Bool}
    (hout : Dispatched s step id out) :
    ChangesTo (fun st => st ≠ .pending ∧ st ≠ .waiting ∧ st ≠ .failed) s.run.state
      out.1.run.state := by
  cases hout with
  | errored | asked | condSkipped | spawned => exact ChangesTo.update _ _ (by decide)
  | routed chosen => exact (routeSplit_changes s.run step chosen).mono (by simp)
  | full => exact ChangesTo.refl _

/-- What a dispatch leaves alone. -/
theorem Dispatched.frame {step : StepConfig} {id : String} {out : DriveState × Bool}
    (hout : Dispatched s step id out) :
    (∃ state stepStates activated, out.1.run =
      { s.run with state := state, stepStates := stepStates, activated := activated }) ∧
      out.1.termFail = s.termFail ∧ out.1.loopTarget = s.loopTarget := by
  cases hout with
  | routed chosen =>
    obtain ⟨state, -, heq⟩ := routeSplit_eq s.run step chosen
    exact ⟨⟨_, _, _, heq⟩, rfl, rfl⟩
  | _ => exact ⟨⟨_, _, _, rfl⟩, rfl, rfl⟩

theorem dispatchStep_cases (e : Engine) (s : DriveState) (id : String) :
    Dispatched s (byID s.run.wf id) id (dispatchStep e s id) := by
  rw [dispatchStep]
  split
  · exact .errored _
  · rename_i hcond
    refine .condSkipped fun hempty => ?_
    simp [conditionHolds, hempty] at hcond
  · split
    · rename_i htype
      rw [runSplitStep]
      split
      · exact .errored _
      · rename_i hroute
        split at hroute
        · cases hroute
        · rename_i chosen _
          simp only [Except.ok.injEq] at hroute
          exact hroute ▸ .routed chosen htype
    · rename_i htype
      exact .asked htype
    · rename_i hsplit happroval
      split
      · exact .full
      · exact .spawned hsplit happroval

/-- The possible effects of a step of the worker at `index`. -/
inductive WorkerStepped (e : Engine) (s : DriveState) (index : ℕ) (w : Worker) :
    WorkerAct → DriveState → Prop where
  | spawn (unit : ℕ) (u : UnitRun) (hunit : w.units[unit]? = some u) (hphase : u.phase = .idle)
      (hspawn : w.maySpawn unit = true) :
      WorkerStepped e s index w (.spawn unit) (s.setUnit index w unit .spawned)
  | start (unit : ℕ) (u : UnitRun) (hunit : w.units[unit]? = some u)
      (hphase : u.phase = .spawned) :
      WorkerStepped e s index w (.start unit)
        ((s.startUnit w u).1.setUnit index w unit (s.startUnit w u).2)
  | finish (unit : ℕ) (u : UnitRun) (row : ℕ) (res : StepResult)
      (hunit : w.units[unit]? = some u) (hphase : u.phase = .running row) :
      WorkerStepped e s index w (.finish unit res)
        ((s.finishUnit w u row res).1.setUnit index w unit (s.finishUnit w u row res).2)
  | deliver (hdeliver : w.mayDeliver = true) : WorkerStepped e s index w .deliver
        { s with
          workers := s.workers.eraseIdx index
          resultCh := s.resultCh ++ [w.result e s.run.cell] }

theorem workerStep_cases {index : ℕ} {act : WorkerAct} (hstep : workerStep e s index act = some t) :
    ∃ w, s.workers[index]? = some w ∧ WorkerStepped e s index w act t := by
  rw [workerStep] at hstep
  split at hstep
  · cases hstep
  · rename_i w hw
    refine ⟨w, hw, ?_⟩
    cases act with
    | spawn unit =>
      dsimp only at hstep
      split at hstep
      · rename_i hunit
        obtain ⟨hspawn, ⟨⟩⟩ := ite_none_right_eq_some.mp hstep
        exact .spawn unit _ hunit rfl hspawn
      · cases hstep
    | start unit =>
      dsimp only at hstep
      split at hstep
      · rename_i hunit
        exact some.inj hstep ▸ .start unit _ hunit rfl
      · cases hstep
    | finish unit res =>
      dsimp only at hstep
      split at hstep
      · rename_i hunit
        exact some.inj hstep ▸ .finish unit _ _ res hunit rfl
      · cases hstep
    | deliver =>
      dsimp only at hstep
      obtain ⟨hdeliver, ⟨⟩⟩ := ite_none_right_eq_some.mp hstep
      exact .deliver hdeliver

/-! ## Results -/

theorem applyMissingOutput_cases (step : StepConfig) (res : StepResult) :
    applyMissingOutput step res = (res, false) ∨
      (applyMissingOutput step res).1.success = false := by
  rw [applyMissingOutput]
  split
  · exact .inl rfl
  · split
    · exact .inr rfl
    · exact .inl rfl

theorem applyMissingOutput_frame (step : StepConfig) (res : StepResult) :
    (applyMissingOutput step res).1.pending = res.pending ∧
      (applyMissingOutput step res).1.stepRunID = res.stepRunID ∧
      (applyMissingOutput step res).1.success = (res.success && !(applyMissingOutput step res).2) := by
  rw [applyMissingOutput]
  split
  · exact ⟨rfl, rfl, by simp⟩
  · split
    · exact ⟨rfl, rfl, by simp⟩
    · exact ⟨rfl, rfl, by simp⟩

theorem applyFailWhen_cases (e : Engine) (r : DagRun) (step : StepConfig) (res : StepResult)
    (contribs : List MemoryStep) :
    applyFailWhen e r step res contribs = (res, false) ∨
      (applyFailWhen e r step res contribs).1.success = false := by
  rw [applyFailWhen]
  split
  · exact .inr rfl
  · dsimp only
    split
    · exact .inr rfl
    · split
      · exact .inr rfl
      · exact .inr rfl
      · exact .inl rfl

/-- The gates either leave a result alone or fail it. -/
theorem gateResult_cases (e : Engine) (r : DagRun) (wr : WorkerResult) (res : StepResult) :
    gateResult e r wr res = (res, false) ∨ (gateResult e r wr res).1.success = false := by
  rw [gateResult]
  rcases applyMissingOutput_cases wr.step res with hsame | hfailed
  · rw [hsame]
    split
    · exact applyFailWhen_cases e r wr.step res wr.parallelContribs
    · exact .inl rfl
  · simp [hfailed]

theorem gateResult_success {r : DagRun} (hsuccess : (gateResult e r wr res).1.success = true) :
    gateResult e r wr res = (res, false) := by
  refine (gateResult_cases e r wr res).resolve_right fun hfailed => ?_
  simp [hfailed] at hsuccess

/-- What the scheduler makes of a worker's result: the gates and the context
applied to it, on the run whose waiting window it closed. -/
def gated (e : Engine) (s : DriveState) (wr : WorkerResult) : Gated :=
  gateResult e (s.run.closeWindow wr.step) wr (canceledResult s.ctxErr wr.res)

theorem canceledResult_success {ctxErr : Option String}
    (hsuccess : (canceledResult ctxErr res).success = true) :
    ctxErr = none ∧ canceledResult ctxErr res = res := by
  cases ctxErr with
  | none => exact ⟨rfl, rfl⟩
  | some => cases hsuccess

/-- A result that counts is the one its worker reported. -/
theorem gated_success (hsuccess : (gated e s wr).1.success = true) :
    s.ctxErr = none ∧ wr.res.success = true ∧ gated e s wr = (wr.res, false) := by
  have hgated : gated e s wr = (canceledResult s.ctxErr wr.res, false) := gateResult_success hsuccess
  rw [hgated] at hsuccess ⊢
  obtain ⟨hnone, hsame⟩ := canceledResult_success hsuccess
  rw [hsame] at hsuccess ⊢
  exact ⟨hnone, hsuccess, rfl⟩

theorem applyFailWhen_stepRunID (e : Engine) (r : DagRun) (step : StepConfig) (res : StepResult)
    (contribs : List MemoryStep) :
    (applyFailWhen e r step res contribs).1.stepRunID = res.stepRunID := by
  rw [applyFailWhen]
  split
  · rfl
  · dsimp only
    split
    · rfl
    · split <;> rfl

theorem gated_marks (hmarks : (gated e s wr).2 = true) : s.ctxErr = none ∧ wr.res.success = true ∧
      (gated e s wr).1.stepRunID = wr.res.stepRunID := by
  have hsuccess : (canceledResult s.ctxErr wr.res).success = true := by
    by_contra hfailed
    have hmissing : applyMissingOutput wr.step (canceledResult s.ctxErr wr.res) =
        (canceledResult s.ctxErr wr.res, false) := by simp [applyMissingOutput, hfailed]
    simp [gated, gateResult, hmissing, hfailed] at hmarks
  obtain ⟨hnone, hsame⟩ := canceledResult_success hsuccess
  rw [hsame] at hsuccess
  refine ⟨hnone, hsuccess, ?_⟩
  have hkey := (applyMissingOutput_frame wr.step wr.res).2.1
  rw [gated, hsame, gateResult]
  split
  · rw [applyFailWhen_stepRunID, hkey]
  · exact hkey

/-- The run and the rows once a result has been recorded. -/
def recorded (e : Engine) (s : DriveState) (wr : WorkerResult) : DriveState :=
  { s with
    phase := .top
    rows := if (gated e s wr).2 then
        markStepRunFailed s.rows (gated e s wr).1.stepRunID (gated e s wr).1.output
      else s.rows
    run := (s.run.closeWindow wr.step).recordState wr (gated e s wr).1 }

/-- The possible effects of applying a result. -/
inductive Applied (e : Engine) (s : DriveState) (wr : WorkerResult) : DriveState → Prop where
  | passed (hsuccess : (gated e s wr).1.success = true) : Applied e s wr
        { recorded e s wr with run := (recorded e s wr).run.passStep wr (gated e s wr).1 }
  | retried (target : String) (hsuccess : (gated e s wr).1.success = false)
      (htarget : failureTarget (recorded e s wr) wr.step (gated e s wr).1 = some target) :
      Applied e s wr
        { recorded e s wr with
          run := (recorded e s wr).run.retryStep wr (gated e s wr).1
          loopTarget := target }
  | failed (hsuccess : (gated e s wr).1.success = false) : Applied e s wr
        { recorded e s wr with
          run := (recorded e s wr).run.setState wr.step.id .failed
          termFail := true
          loopTarget := "" }

theorem applyResult_cases (e : Engine) (s : DriveState) (wr : WorkerResult) :
    Applied e s wr (s.applyResult e wr) := by
  change Applied e s wr
    (if (gated e s wr).1.success then
      { recorded e s wr with run := (recorded e s wr).run.passStep wr (gated e s wr).1 }
    else (recorded e s wr).failStep wr (gated e s wr).1)
  split_ifs with hsuccess
  · exact .passed hsuccess
  · rw [DriveState.failStep]
    split
    · rename_i target htarget
      exact .retried target (by simpa using hsuccess) htarget
    · exact .failed (by simpa using hsuccess)

section

variable (r : DagRun) (step : StepConfig)

/-- Closing a waiting window only touches what parks keep. -/
theorem closeWindow_eq :
    ∃ deadline done child, r.closeWindow step =
      { r with waitDeadline := deadline, parallelDone := done, waitingChild := child } := by
  rw [closeWindow]
  split
  · split
    · exact ⟨none, _, "", rfl⟩
    · exact ⟨r.waitDeadline, r.parallelDone, "", rfl⟩
  · exact ⟨none, r.parallelDone, r.waitingChild, rfl⟩
  · exact ⟨r.waitDeadline, r.parallelDone, r.waitingChild, rfl⟩

@[simp]
theorem closeWindow_state : (r.closeWindow step).state = r.state := by
  obtain ⟨_, _, _, heq⟩ := closeWindow_eq r step
  rw [heq]

@[simp]
theorem closeWindow_wf : (r.closeWindow step).wf = r.wf := by
  obtain ⟨_, _, _, heq⟩ := closeWindow_eq r step
  rw [heq]

@[simp]
theorem closeWindow_stopped : (r.closeWindow step).stopped = r.stopped := by
  obtain ⟨_, _, _, heq⟩ := closeWindow_eq r step
  rw [heq]

theorem closeWindow_contrib : (r.closeWindow step).contrib = r.contrib := by
  obtain ⟨_, _, _, heq⟩ := closeWindow_eq r step
  rw [heq]

theorem closeWindow_activated : (r.closeWindow step).activated = r.activated := by
  obtain ⟨_, _, _, heq⟩ := closeWindow_eq r step
  rw [heq]

/-- A group that reports keeps none of its children. -/
theorem closeWindow_parallelDone :
    (r.closeWindow step).parallelDone =
      if step.type = .parallel then update r.parallelDone step.id none
      else r.parallelDone := by
  rw [closeWindow]
  split
  · rename_i htype
    rw [if_pos htype]
    split_ifs with hnone
    · rfl
    · have hkept : r.parallelDone step.id = none := by simpa using hnone
      rw [← hkept, Function.update_eq_self]
  · rename_i htype
    simp [htype]
  · rename_i hparallel hwait
    rw [if_neg hparallel]

end

theorem retryStep_state (r : DagRun) (wr : WorkerResult) (res : StepResult) :
    (r.retryStep wr res).state = update r.state wr.step.id (some .pending) := by
  rw [retryStep]
  split <;> rfl

theorem retryStep_frame (r : DagRun) (wr : WorkerResult) (res : StepResult) :
    (r.retryStep wr res).wf = r.wf ∧ (r.retryStep wr res).stopped = r.stopped := by
  rw [retryStep]
  split <;> exact ⟨rfl, rfl⟩

/-- What a result does to its step, to memory and to the routes. -/
inductive Applied.Effect (e : Engine) (s : DriveState) (wr : WorkerResult) (t : DriveState) :
    Prop where
  | passed (hsuccess : (gated e s wr).1.success = true)
      (hstate : t.run.state = update s.run.state wr.step.id (some .passed))
      (hcontrib : t.run.contrib = s.run.mergeContribs wr (gated e s wr).1)
      (hactivated : ∀ id, t.run.activated id = (s.run.activated id ||
        wr.step.onPass.any fun next => next.next ≠ "" && next.next = id)) : Effect e s wr t
  | refused (st : Status) (hst : st = .pending ∨ st = .failed)
      (hsuccess : (gated e s wr).1.success = false)
      (hstate : t.run.state = update s.run.state wr.step.id (some st))
      (hcontrib : t.run.contrib = s.run.contrib) (hactivated : t.run.activated = s.run.activated) :
      Effect e s wr t

theorem Applied.effect (happlied : Applied e s wr t) : Applied.Effect e s wr t := by
  have hcontrib := closeWindow_contrib s.run wr.step
  have hactivated := closeWindow_activated s.run wr.step
  cases happlied with
  | passed hsuccess =>
    refine .passed hsuccess ?_ ?_ fun id => congrArg (· || _) (congrFun hactivated id)
    · simp [passStep, setState, recorded, recordState]
    · simp [passStep, mergeContribs, recorded, recordState, hcontrib]
  | retried target hsuccess =>
    refine .refused .pending (.inl rfl) hsuccess ?_ ?_ ?_
    · simp [retryStep_state, recorded, recordState]
    · rw [retryStep]
      split <;> exact hcontrib
    · rw [retryStep]
      split <;> exact hactivated
  | failed hsuccess =>
    refine .refused .failed (.inr rfl) hsuccess ?_ hcontrib hactivated
    simp [setState, recorded, recordState]

/-- A result moves exactly its own step, out of `running`. -/
theorem Applied.state_eq (happlied : Applied e s wr t) :
    ∃ st, (st = .passed ∨ st = .pending ∨ st = .failed) ∧
      t.run.state = update s.run.state wr.step.id (some st) := by
  cases happlied.effect with
  | passed hsuccess hstate => exact ⟨.passed, .inl rfl, hstate⟩
  | refused st hst hsuccess hstate => exact ⟨st, .inr hst, hstate⟩

theorem Applied.frame (happlied : Applied e s wr t) :
    t.run.wf = s.run.wf ∧ t.run.stopped = s.run.stopped := by
  cases happlied with
  | passed | failed => exact ⟨closeWindow_wf _ _, closeWindow_stopped _ _⟩
  | retried =>
    obtain ⟨hwf, hstopped⟩ := retryStep_frame (recorded e s wr).run wr (gated e s wr).1
    exact ⟨hwf.trans (closeWindow_wf _ _), hstopped.trans (closeWindow_stopped _ _)⟩

/-- What applying a result writes. -/
theorem Applied.eq (happlied : Applied e s wr t) :
    ∃ run termFail loopTarget, t = { s with
      run := run, phase := .top, rows := (recorded e s wr).rows
      termFail := termFail, loopTarget := loopTarget } := by
  cases happlied <;> exact ⟨_, _, _, rfl⟩

/-! ## Parks -/

/-- What entering a park does to the run, whatever kind it is: its step waits, and a group
keeps the children that have ended. -/
theorem enterPark_eq (r : DagRun) (now : ℕ) (wr : WorkerResult) :
    ∃ parkedAt deadline child, r.enterPark now wr =
      { r with
        state := update r.state wr.step.id (some .waiting)
        waitingStep := wr.step.id
        parallelDone :=
          if wr.step.type = .parallel then
            update r.parallelDone wr.step.id (some wr.parallel.done)
          else r.parallelDone
        parkedAt := parkedAt, waitDeadline := deadline, waitingChild := child } := by
  rw [enterPark]
  split
  · rename_i htype
    exact ⟨_, _, _, by rw [htype]; rfl⟩
  · rename_i htype
    exact ⟨_, _, _, by rw [htype]; rfl⟩
  · rename_i hparallel
    exact ⟨_, _, _, by rw [if_neg hparallel]; rfl⟩

theorem parks_cases (hparks : parks wr = true) :
    wr.step.type = .approval ∨ (wr.step.type = .parallel ∧ wr.res.pending = true) ∨
      (wr.step.type = .waitFor ∧ wr.res.pending = true) := by
  simp only [parks, Bool.or_eq_true, Bool.and_eq_true, decide_eq_true_eq] at hparks
  grind

/-! ## The loop -/

/-- The possible effects of the loop body with nothing in flight. -/
inductive Quiesced (s : DriveState) : DriveState → Prop where
  | stopped (hstopped : s.run.stopped = true) : Quiesced s { s with phase := .ended .stopped }
  | failed (hstopped : s.run.stopped = false) (hfail : s.termFail = true) :
      Quiesced s { s with phase := .ended .failed }
  | reset (hstopped : s.run.stopped = false) (hfail : s.termFail = false)
      (hloop : s.loopTarget ≠ "") :
      Quiesced s
        { s with
          run := s.run.resetLoop s.loopTarget
          history := .reset (resetSet s.run.wf s.loopTarget) :: s.history
          loopTarget := ""
          phase := .top }
  | skipped (hstopped : s.run.stopped = false) :
      Quiesced s { s with run := (skipUnreachable s.run).1, phase := .top }
  | again (hstopped : s.run.stopped = false) : Quiesced s { s with phase := .top }
  | ended (hstopped : s.run.stopped = false) (hfail : s.termFail = false)
      (hloop : s.loopTarget = "") (hskip : (skipUnreachable s.run).2 = false)
      (hrunnable : pickAllRunnable s.run.wf s.run.state s.run.activated = []) :
      Quiesced s { s with phase := .ended (finalOutcome s.run) }

theorem quiesce_cases (s : DriveState) : Quiesced s s.quiesce := by
  rw [DriveState.quiesce]
  split
  · exact .stopped ‹_›
  · rename_i hstopped
    have hstopped : s.run.stopped = false := by simpa using hstopped
    split
    · exact .failed hstopped ‹_›
    · rename_i hfail
      have hfail : s.termFail = false := by simpa using hfail
      split
      · exact .reset hstopped hfail ‹_›
      · rename_i hloop
        dsimp only
        split
        · exact .skipped hstopped
        · rename_i hskip
          split
          · exact .again hstopped
          · rename_i hrunnable
            exact .ended hstopped hfail (by simpa using hloop) (by simpa using hskip)
              (by simpa using hrunnable)

/-- The possible effects of taking a result off the channel. -/
inductive Received (e : Engine) (s : DriveState) (wr : WorkerResult) : DriveState → Prop where
  | dropped (hstopped : s.run.stopped = true) :
      Received e s wr { s with phase := .top, lost := .result wr :: s.lost }
  | parking (hstopped : s.run.stopped = false) (hparks : parks wr = true) :
      Received e s wr { s with phase := .drain wr }
  | applied (hstopped : s.run.stopped = false) (hparks : parks wr = false) (t : DriveState)
      (happlied : Applied e s wr t) : Received e s wr t

theorem receive_cases (e : Engine) (s : DriveState) (wr : WorkerResult) :
    Received e s wr (s.receive e wr) := by
  rw [DriveState.receive]
  split
  · exact .dropped ‹_›
  · rename_i hstopped
    split_ifs with hparks
    · exact .parking (by simpa using hstopped) ‹_›
    · exact .applied (by simpa using hstopped) (by simpa using hparks) _ (applyResult_cases e s wr)

/-- The state in which a received result is handled. -/
def DriveState.take (s : DriveState) (rest : List WorkerResult) : DriveState :=
  { s with resultCh := rest, inFlight := s.inFlight - 1 }

/-- The possible steps of the scheduler goroutine. -/
inductive SchedStepped (e : Engine) (now : ℕ) (s : DriveState) : DriveState → Prop where
  | hold (hphase : s.phase = .top) : SchedStepped e now s { s with phase := .check }
  | pick (hphase : s.phase = .top) (hstopped : s.run.stopped = false) : SchedStepped e now s
        { s with phase := .dispatch (pickAllRunnable s.run.wf s.run.state s.run.activated) }
  | picked (hphase : s.phase = .dispatch []) : SchedStepped e now s { s with phase := .check }
  | dispatch (id : String) (ids : List String) (hphase : s.phase = .dispatch (id :: ids))
      (out : DriveState × Bool) (hout : Dispatched s (byID s.run.wf id) id out) :
      SchedStepped e now s { out.1 with phase := if out.2 then .check else .dispatch ids }
  | quiesce (hphase : s.phase = .check) (hnone : s.inFlight = 0) (t : DriveState)
      (hquiesced : Quiesced s t) : SchedStepped e now s t
  | await (hphase : s.phase = .check) : SchedStepped e now s { s with phase := .recv }
  | receive (wr : WorkerResult) (rest : List WorkerResult) (hphase : s.phase = .recv)
      (hresult : s.resultCh = wr :: rest) (t : DriveState)
      (hreceived : Received e (s.take rest) wr t) : SchedStepped e now s t
  | discard (wr dropped : WorkerResult) (rest : List WorkerResult) (hphase : s.phase = .drain wr)
      (hsome : s.inFlight ≠ 0) (hresult : s.resultCh = dropped :: rest) :
      SchedStepped e now s { s.take rest with lost := .result dropped :: s.lost }
  | park (wr : WorkerResult) (hphase : s.phase = .drain wr) (hnone : s.inFlight = 0) :
      SchedStepped e now s (s.park now wr)

theorem schedStep_cases {now : ℕ} (hstep : schedStep e now s = some t) :
    SchedStepped e now s t := by
  rw [schedStep] at hstep
  split at hstep
  · rename_i hphase
    split_ifs at hstep with hflags
    · simp only [Bool.and_eq_true, Bool.not_eq_eq_eq_not, Bool.not_true] at hflags
      exact some.inj hstep ▸ .pick hphase hflags.2
    · exact some.inj hstep ▸ .hold hphase
  · rename_i hphase
    exact some.inj hstep ▸ .picked hphase
  · rename_i id ids hphase
    exact some.inj hstep ▸ .dispatch id ids hphase _ (dispatchStep_cases e s id)
  · rename_i hphase
    split_ifs at hstep with hnone
    · simp only [some.injEq] at hstep
      exact .quiesce hphase hnone t (hstep ▸ quiesce_cases s)
    · exact some.inj hstep ▸ .await hphase
  · rename_i hphase
    split at hstep
    · cases hstep
    · rename_i wr rest hresult
      simp only [some.injEq] at hstep
      exact .receive wr rest hphase hresult t (hstep ▸ receive_cases e (s.take rest) wr)
  · rename_i wr hphase
    split at hstep
    · rename_i hnone
      exact some.inj hstep ▸ .park wr hphase hnone
    · rename_i hsome
      split at hstep
      · cases hstep
      · rename_i dropped rest hresult
        exact some.inj hstep ▸ .discard wr dropped rest hphase hsome hresult
  · cases hstep
  · cases hstep

/-- How a parked run goes on, answered or woken: its waiting step is settled. -/
def DriveState.leavePark (s : DriveState) (st : Status) (contrib : String → Option MemoryStep)
    (stepStates : String → Option StepState) (child : String) (history : List Mark) : DriveState :=
  { s with
    run :=
      { s.run with
        state := update s.run.state s.run.waitingStep (some st)
        contrib := contrib, stepStates := stepStates, waitingStep := "", waitingChild := child }
    phase := .top, ctxErr := none, history := history }

/-- The possible steps of the whole machine. -/
inductive Stepped (e : Engine) (s : DriveState) : Event → DriveState → Prop where
  | sched (now : ℕ) (t : DriveState) (hsched : SchedStepped e now s t) : Stepped e s (.sched now) t
  | worker (index : ℕ) (act : WorkerAct) (w : Worker) (hw : s.workers[index]? = some w)
      (t : DriveState) (hworker : WorkerStepped e s index w act t) :
      Stepped e s (.worker index act) t
  | cancel (err : String) (hdriving : s.phase.driving = true) :
      Stepped e s (.cancel err) { s with ctxErr := some err }
  | stop (hdriving : s.phase.driving = true) :
      Stepped e s .stop { s with run := { s.run with stopped := true } }
  | resolve (approve : Bool) (memory : ApprovalMemory) (hphase : s.phase = .parked) :
      Stepped e s (.resolve approve memory)
        { s with
          run := s.run.resolveApproval approve memory
          phase := .top
          ctxErr := none
          history := if approve then .approved s.run.waitingStep :: s.history else s.history }
  | wake (hphase : s.phase = .parked) :
      Stepped e s .wake { s with run := s.run.rearm, phase := .top, ctxErr := none }

theorem step_cases {ev : Event} (hstep : step e s ev = some t) : Stepped e s ev t := by
  cases ev with
  | sched now => exact .sched now t (schedStep_cases hstep)
  | worker index act =>
    obtain ⟨w, hw, hworker⟩ := workerStep_cases hstep
    exact .worker index act w hw t hworker
  | cancel err =>
    obtain ⟨hdriving, ⟨⟩⟩ := ite_none_right_eq_some.mp hstep
    exact .cancel err hdriving
  | stop =>
    obtain ⟨hdriving, ⟨⟩⟩ := ite_none_right_eq_some.mp hstep
    exact .stop hdriving
  | resolve approve memory =>
    rw [step] at hstep
    split at hstep
    · rename_i hphase
      exact some.inj hstep ▸ .resolve approve memory hphase
    · cases hstep
  | wake =>
    rw [step] at hstep
    split at hstep
    · rename_i hphase
      exact some.inj hstep ▸ .wake hphase
    · cases hstep

/-! ## Restored runs -/

/-- What restoring rows leaves alone. -/
structure Restores (r t : DagRun) : Prop where
  passing : ChangesTo (fun st => st = .passed) r.state t.state
  wf : t.wf = r.wf
  stopped : t.stopped = r.stopped
  waitingChild : t.waitingChild = r.waitingChild

theorem restoreRow_restores (r : DagRun) (sr : StepRun) : Restores r (restoreRow r sr) := by
  have hself : Restores r r := ⟨ChangesTo.refl r.state, rfl, rfl, rfl⟩
  rw [restoreRow]
  split
  · exact hself
  · split
    · split
      · exact hself
      · exact ⟨ChangesTo.update _ _ rfl, rfl, rfl, rfl⟩
    · split
      · rw [restoreParallelChild]
        split
        · exact hself
        · exact ⟨ChangesTo.refl r.state, rfl, rfl, rfl⟩
      · exact hself

theorem restoreCachedSteps_restores (rows : List StepRun) (r : DagRun) :
    Restores r (restoreCachedSteps r rows) := by
  induction rows generalizing r with
  | nil => exact ⟨ChangesTo.refl r.state, rfl, rfl, rfl⟩
  | cons sr rows ih =>
    have hrow := restoreRow_restores r sr
    have hrest := ih (restoreRow r sr)
    exact ⟨hrow.passing.trans hrest.passing, hrest.wf.trans hrow.wf,
      hrest.stopped.trans hrow.stopped, hrest.waitingChild.trans hrow.waitingChild⟩

end Apiary.Workflow
