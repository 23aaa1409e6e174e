import Apiary.Workflow.Closure
import Apiary.Workflow.Skipping
import Apiary.Workflow.Termination

/-!
# How an event moves step states

Each event of the machine moves step states in one of a few ways: it dispatches a
step, settles one that was in flight, rolls steps back or skips unreachable ones.
What blocks a step, and what the loop has picked, can be followed through them.
-/

namespace Apiary.Workflow

open Config List Function DagRun Bool

variable {now : ℕ} {ev : Event} {wf : WorkflowConfig} {state : StateMap} {id other : String}

/-- The targets that dispatching `id` chooses, when it is a split whose condition
holds and whose branches can be evaluated. -/
def chosenAt (e : Engine) (s : DriveState) (id : String) : Option (List String) :=
  let step := byID s.run.wf id
  if step.type = .split then
    match conditionHolds e s.run step,
      chooseBranches e (s.run.evalContext e) step.multi step.branches with
    | .ok true, .ok chosen => some chosen
    | _, _ => none
  else none

/-- The split an event routes, with the targets it chooses. -/
def routedBy (e : Engine) (s : DriveState) : Event → Option (String × List String)
  | .sched _ =>
    match s.phase with
    | .dispatch (id :: _) => (chosenAt e s id).map fun chosen => (id, chosen)
    | _ => none
  | _ => none

/-- The step an event takes up: it is started, or its condition turns it away. -/
def takenBy (e : Engine) (s : DriveState) : Event → Option String
  | .sched _ =>
    match s.phase with
    | .dispatch (id :: _) => if (dispatchStep e s id).2 then none else some id
    | _ => none
  | _ => none

/-- The step whose result an event applies as a success. -/
def passedBy (e : Engine) (s : DriveState) : Event → Option StepConfig
  | .sched _ =>
    match s.phase, s.resultCh with
    | .recv, wr :: rest =>
      if !s.run.stopped && !parks wr && (gated e (s.take rest) wr).1.success then some wr.step
      else none
    | _, _ => none
  | _ => none

/-- The steps an event rolls back. -/
def rolledBackBy (s : DriveState) : Event → List String
  | .sched _ =>
    match s.phase with
    | .check =>
      if s.inFlight = 0 && !s.run.stopped && !s.termFail && s.loopTarget ≠ "" then
        resetSet s.run.wf s.loopTarget
      else []
    | _ => []
  | _ => []

section Steps

variable {e : Engine} {s t : DriveState}

/-- The ways a dispatch can end, by what it does to splits and targets. -/
inductive Turned (e : Engine) (s : DriveState) (id : String) : Prop where
  | routed (chosen : List String) (hchosen : chosenAt e s id = some chosen)
      (hout : dispatchStep e s id = ({ s.began (byID s.run.wf id) with
           run := s.run.routeSplit (byID s.run.wf id) chosen }, false))
  | full (hchosen : chosenAt e s id = none) (hout : dispatchStep e s id = (s, true))
  | moved (hchosen : chosenAt e s id = none) (st : Status)
      (hstate : (dispatchStep e s id).1.run.state = update s.run.state id (some st))
      (hactivated : (dispatchStep e s id).1.run.activated = s.run.activated)
      (htaken : (dispatchStep e s id).2 = false)

theorem dispatchStep_turned (e : Engine) (s : DriveState) (id : String) : Turned e s id := by
  cases hcond : conditionHolds e s.run (byID s.run.wf id) with
  | error err =>
    have hout : dispatchStep e s id = (s.push (byID s.run.wf id) id
        { output := "condition eval error " ++ quote (byID s.run.wf id).condition ++ ": " ++
            err }, false) := by
      rw [dispatchStep, hcond]
    refine .moved ?_ .running (by rw [hout]; rfl) (by rw [hout]; rfl) (by rw [hout])
    simp [chosenAt, hcond]
  | ok holds =>
    cases holds with
    | false =>
      have hout : dispatchStep e s id = ({ s with run := s.run.markCondSkipped id }, false) := by
        rw [dispatchStep, hcond]
      refine .moved ?_ .condSkipped (by rw [hout]; rfl) (by rw [hout]; rfl) (by rw [hout])
      simp [chosenAt, hcond]
    | true =>
      by_cases htype : (byID s.run.wf id).type = .split
      · cases hchoose : chooseBranches e (s.run.evalContext e) (byID s.run.wf id).multi
            (byID s.run.wf id).branches with
        | error err =>
          have hout : dispatchStep e s id = (s.push (byID s.run.wf id) id
              { output := "split condition eval error: " ++ err }, false) := by
            rw [dispatchStep, hcond]
            simp [htype, runSplitStep, hchoose]
          refine .moved ?_ .running (by rw [hout]; rfl) (by rw [hout]; rfl) (by rw [hout])
          simp [chosenAt, hcond, htype, hchoose]
        | ok chosen =>
          refine .routed chosen (by simp [chosenAt, hcond, htype, hchoose]) ?_
          rw [dispatchStep, hcond]
          simp [htype, runSplitStep, hchoose]
      · have hnone : chosenAt e s id = none := by simp [chosenAt, htype]
        by_cases happroval : (byID s.run.wf id).type = .approval
        · have hout : dispatchStep e s id = ((s.began (byID s.run.wf id)).push
              (byID s.run.wf id) id { success := true }, false) := by
            rw [dispatchStep, hcond]
            simp [happroval]
          exact .moved hnone .running (by rw [hout]; rfl) (by rw [hout]; rfl) (by rw [hout])
        · have hout : dispatchStep e s id = if e.concurrencyLimit ≤ s.inFlight then (s, true)
              else ((s.began (byID s.run.wf id)).spawn (byID s.run.wf id) id, false) := by
            rw [dispatchStep, hcond]
            cases htype' : (byID s.run.wf id).type <;> simp_all
          by_cases hfull : e.concurrencyLimit ≤ s.inFlight
          · rw [if_pos hfull] at hout
            exact .full hnone hout
          · rw [if_neg hfull] at hout
            exact .moved hnone .running (by rw [hout]; rfl) (by rw [hout]; rfl) (by rw [hout])


/-- How an event moves step states and activations. -/
inductive Moves (e : Engine) (s t : DriveState) : Event → Prop where
  | dispatched (now : ℕ) (id : String) (ids : List String)
      (hphase : s.phase = .dispatch (id :: ids)) (hrun : t.run = (dispatchStep e s id).1.run) :
      Moves e s t (.sched now)
  | passed (now : ℕ) (wr : WorkerResult) (hrunning : s.run.state wr.step.id = some .running)
      (hpassed : passedBy e s (.sched now) = some wr.step)
      (hrouted : routedBy e s (.sched now) = none)
      (hstate : t.run.state = update s.run.state wr.step.id (some .passed))
      (hactivated : ∀ id, t.run.activated id = (s.run.activated id ||
        wr.step.onPass.any fun next => next.next ≠ "" && next.next = id)) :
      Moves e s t (.sched now)
  | settled (ev : Event) (id : String) (st : Status)
      (hbusy : s.run.state id = some .running ∨ s.run.state id = some .waiting)
      (hstate : t.run.state = update s.run.state id (some st))
      (hactivated : t.run.activated = s.run.activated) (hrouted : routedBy e s ev = none) :
      Moves e s t ev
  | reset (now : ℕ) (hphase : s.phase = .check)
      (hrolled : rolledBackBy s (.sched now) = resetSet s.run.wf s.loopTarget)
      (hrun : t.run = s.run.resetLoop s.loopTarget) : Moves e s t (.sched now)
  | swept (now : ℕ) (hphase : s.phase = .check) (hrun : t.run = (skipUnreachable s.run).1) :
      Moves e s t (.sched now)
  | still (ev : Event) (hstate : t.run.state = s.run.state)
      (hactivated : t.run.activated = s.run.activated) (hrouted : routedBy e s ev = none) :
      Moves e s t ev

theorem routedBy_eq_none (hphase : ∀ id ids, s.phase ≠ .dispatch (id :: ids)) :
    routedBy e s (.sched now) = none := by
  rw [routedBy]
  split
  · exact absurd ‹_› (hphase _ _)
  · rfl

theorem Applied.moves {wr : WorkerResult} {rest : List WorkerResult} (hphase : s.phase = .recv)
    (hresult : s.resultCh = wr :: rest) (hrunning : s.run.state wr.step.id = some .running)
    (hstopped : s.run.stopped = false) (hparks : parks wr = false)
    (happlied : Applied e (s.take rest) wr t) : Moves e s t (.sched now) := by
  have hrouted : routedBy e s (.sched now) = none := routedBy_eq_none (by simp [hphase])
  cases happlied.effect with
  | passed hsuccess hstate hcontrib hactivated =>
    refine .passed now wr hrunning ?_ hrouted hstate hactivated
    rw [passedBy, hphase, hresult]
    simp [hstopped, hparks, hsuccess]
  | refused st hst hsuccess hstate hcontrib hactivated =>
    exact .settled _ wr.step.id st (.inl hrunning) hstate hactivated hrouted

theorem schedStep_moves (ho : Ordered s) (hstep : schedStep e now s = some t) :
    Moves e s t (.sched now) := by
  have hstill : t.run = s.run → (∀ id ids, s.phase ≠ .dispatch (id :: ids)) →
      Moves e s t (.sched now) := by
    intro hrun hphase
    exact .still _ (by rw [hrun]) (by rw [hrun]) (routedBy_eq_none hphase)
  cases hphase : s.phase with
  | dispatch ids =>
    cases ids with
    | nil =>
      rw [schedStep, hphase] at hstep
      cases hstep
      exact hstill rfl (by simp [hphase])
    | cons id ids =>
      rw [schedStep, hphase] at hstep
      cases hstep
      exact .dispatched now id ids hphase rfl
  | _ =>
    have hno : ∀ id ids, s.phase ≠ .dispatch (id :: ids) := by simp [hphase]
    cases schedStep_cases hstep with
    | dispatch id ids hphase' => exact absurd hphase' (hno id ids)
    | quiesce hcheck hnone t hquiesced =>
      cases hquiesced with
      | reset hstopped hfail hloop =>
        refine .reset now hcheck ?_ rfl
        rw [rolledBackBy, hcheck]
        simp [hnone, hstopped, hfail, hloop]
      | skipped => exact .swept now hcheck rfl
      | _ => exact hstill rfl hno
    | receive wr rest hrecv hresult t hreceived =>
      cases hreceived with
      | applied hstopped hparks t happlied =>
        refine happlied.moves hrecv hresult ?_ hstopped hparks
        refine ho.flight.running _ ?_
        rw [busyIDs_of_held (by rw [hrecv]; rfl)]
        exact (take_inFlightIDs hresult).mem_iff.mpr mem_cons_self
      | _ => exact hstill rfl hno
    | park wr hdrain =>
      obtain ⟨_, _, _, hpark⟩ := enterPark_eq s.run now wr
      rw [DriveState.park, hpark]
      refine .settled _ wr.step.id .waiting (.inl ?_) rfl rfl (routedBy_eq_none hno)
      refine ho.flight.running _ ?_
      rw [DriveState.busyIDs, hdrain]
      exact mem_cons_self
    | _ => exact hstill rfl hno

theorem step_moves (ho : Ordered s) (hstep : Workflow.step e s ev = some t) : Moves e s t ev := by
  cases step_cases hstep with
  | sched => exact schedStep_moves ho hstep
  | worker index act w hw t hworker =>
    obtain ⟨_, _, _, _, _, rfl⟩ := workerStepped_eq hworker
    exact .still _ rfl rfl rfl
  | cancel | stop => exact .still _ rfl rfl rfl
  | resolve approve memory hphase =>
    exact .settled _ s.run.waitingStep _ (.inr (ho.parked hphase)) rfl rfl rfl
  | wake hphase => exact .settled _ s.run.waitingStep _ (.inr (ho.parked hphase)) rfl rfl rfl

/-! ## What the loop has picked -/

/-- What the loop has picked is pending until its turn comes. -/
def Poised (s : DriveState) : Prop :=
  ∀ ids, s.phase = .dispatch ids → ∀ id ∈ ids, s.run.state id = some .pending

theorem not_blocked_of_depsPassed (hdeps : depsPassed wf state id = true) :
    blocked wf state id = false := by
  obtain ⟨hhard, hseq⟩ := depsPassed_iff.mp hdeps
  rw [eq_false_iff]
  intro hblocked
  rcases blocked_iff.mp hblocked with ⟨dep, hdep, hbad⟩ | ⟨dep, hdep, hbad⟩
  · simp [hhard dep hdep] at hbad
  · rcases hseq dep hdep with h | h <;> simp [h] at hbad

/-- The steps picked after `id` stay pending when `id` is dispatched: a split skips
one of them only if it is blocked, and what is picked has its dependencies. -/
theorem Poised.dispatched (hp : Poised s) (hs : WellFormed s) (ho : Ordered s) {ids : List String}
    (hphase : s.phase = .dispatch (id :: ids)) {r : DagRun} (hready : ∀ other ∈ ids, Ready r other)
    {out : DriveState × Bool} (hout : Dispatched s (byID s.run.wf id) id out)
    (hrun : out.1.run = r) (hother : other ∈ ids) : r.state other = some .pending := by
  have hpending := hp _ hphase other (mem_cons_of_mem _ hother)
  have hfresh := (nodup_cons.mp (ho.picked _ hphase).1).1
  have hne : other ≠ id := fun heq => hfresh (heq ▸ hother)
  have hwf := hout.wf
  subst hrun
  cases hout with
  | routed chosen =>
    obtain ⟨hcascades, hactivated⟩ := routeSplit_cascades s.run (byID s.run.wf id) chosen
    have hid : (byID s.run.wf id).id = id := byID_id (hs.picked _ hphase mem_cons_self)
    rcases hcascades.caused other with hsame | ⟨-, hinactive⟩ | hblocked
    · exact hsame.trans ((update_of_ne (hid.symm ▸ hne) _ _).trans hpending)
    · have hactive := (hready other hother).activated
      rw [← hactivated] at hinactive
      simp [hinactive] at hactive
    · have hdeps := not_blocked_of_depsPassed (hready other hother).deps
      rw [hwf] at hdeps
      simp [hdeps] at hblocked
  | full => exact hpending
  | _ => exact (update_of_ne hne _ _).trans hpending

theorem Poised.step (hp : Poised s) (hs : WellFormed s) (ho : Ordered s) (ht : Ordered t)
    (hstep : Workflow.step e s ev = some t) : Poised t := by
  intro ids hids other hother
  -- a phase that is not entered here was left alone together with the states
  have hsame : t.phase = s.phase → t.run.state = s.run.state → t.run.state other = some .pending := by
    intro hphase hstate
    rw [hstate]
    exact hp ids (hphase ▸ hids) other hother
  cases step_cases hstep with
  | sched now t hsched =>
    cases hsched with
    | pick =>
      cases hids
      have hpick := (mem_filter.mp hother).2
      simp only [and_eq_true, decide_eq_true_eq] at hpick
      exact hpick.1.1
    | dispatch id picked hphase out hout =>
      have hready := (ht.picked ids hids).2
      have heq : ids = picked := by
        dsimp only at hids
        split at hids <;> cases hids
        rfl
      subst heq
      exact hp.dispatched hs ho hphase hready hout rfl hother
    | quiesce hphase hnone t hquiesced => exact absurd hids (hquiesced.outside.1 ids)
    | receive wr rest hphase hresult t hreceived => exact absurd hids (hreceived.frame.2.2 ids)
    | discard wr dropped rest hphase => nomatch hphase.symm.trans hids
    | _ => cases hids
  | worker index act w hw t hworker =>
    obtain ⟨_, _, _, _, _, rfl⟩ := workerStepped_eq hworker
    exact hsame rfl rfl
  | cancel | stop => exact hsame rfl rfl
  | resolve | wake => cases hids

/-! ## What happens to a pending or blocked step -/

/-- The states that no dependent can wait out. -/
def Stuck (st : Option Status) : Prop :=
  st = some .skipped ∨ st = some .failed ∨ st = some .condSkipped

/-- An event that moves one step that was neither pending nor stuck. -/
theorem blocked_update {st : Status} (hfree : ¬ Stuck (state id))
    (hblocked : blocked wf state other = true) :
    blocked wf (update state id (some st)) other = true := by
  refine blocked_mono (fun dep _ hstuck => .inl (update_of_ne ?_ _ _)) hblocked
  rintro rfl
  exact hfree hstuck

variable (hmoves : Moves e s t ev)

include hmoves

theorem Moves.stays_blocked (hp : Poised s) (hs : WellFormed s)
    (hblocked : blocked s.run.wf s.run.state id = true) :
    blocked s.run.wf t.run.state id = true ∨ t.run.state id = some .pending := by
  have hbusy : ∀ {other}, (s.run.state other = some .running ∨ s.run.state other = some .waiting) →
      ¬ Stuck (s.run.state other) := by
    intro other h
    rcases h with h | h <;> simp [h, Stuck]
  cases hmoves with
  | dispatched now other ids hphase hrun =>
    have hfree : ¬ Stuck (s.run.state other) := by
      simp [hp _ hphase other mem_cons_self, Stuck]
    refine .inl ?_
    rw [hrun]
    cases dispatchStep_turned e s other with
    | routed chosen hchosen hout =>
      rw [hout]
      have hother : (byID s.run.wf other).id = other := byID_id (hs.picked _ hphase mem_cons_self)
      have hcascades := (routeSplit_cascades s.run (byID s.run.wf other) chosen).1
      rw [hother] at hcascades
      exact hcascades.blocked (blocked_update hfree hblocked)
    | full hchosen hout =>
      rw [hout]
      exact hblocked
    | moved hchosen st hstate =>
      rw [hstate]
      exact blocked_update hfree hblocked
  | passed now wr hrunning hpassed hrouted hstate =>
    rw [hstate]
    exact .inl (blocked_update (hbusy (.inl hrunning)) hblocked)
  | settled ev other st hother hstate =>
    rw [hstate]
    exact .inl (blocked_update (hbusy hother) hblocked)
  | reset now hphase hrolled hrun =>
    rw [hrun]
    by_cases hid : id ∈ resetSet s.run.wf s.loopTarget
    · exact .inr (by simp [resetLoop, hid])
    · refine .inl (blocked_mono (fun dep hdep _ => .inl ?_) hblocked)
      have hkept : dep ∉ resetSet s.run.wf s.loopTarget :=
        fun hreset => hid (resetSet_closed hreset (mem_dependents hdep))
      simp [resetLoop, hkept]
  | swept now hphase hrun =>
    rw [hrun]
    exact .inl ((skipUnreachable_cascades s.run).blocked hblocked)
  | still ev hstate =>
    rw [hstate]
    exact .inl hblocked

theorem Moves.leaves_pending (hs : WellFormed s) (hactive : s.run.activated id = true)
    (hpending : s.run.state id = some .pending) :
    takenBy e s ev = some id ∨ t.run.state id = some .pending ∨
      blocked s.run.wf t.run.state id = true := by
  have hupdate : ∀ {other : String} {st : Status}, other ≠ id →
      t.run.state = update s.run.state other (some st) →
      t.run.state id = some .pending := by
    intro other st hne hstate
    rw [hstate, update_of_ne (Ne.symm hne), hpending]
  cases hmoves with
  | dispatched now other ids hphase hrun =>
    cases dispatchStep_turned e s other with
    | routed chosen hchosen hout =>
      by_cases hother : other = id
      · refine .inl ?_
        rw [takenBy, hphase, hother.symm]
        simp [hout]
      · have hname : (byID s.run.wf other).id = other := byID_id (hs.picked _ hphase mem_cons_self)
        obtain ⟨hcascades, -⟩ := routeSplit_cascades s.run (byID s.run.wf other) chosen
        rw [hname] at hcascades
        rw [hrun, hout]
        refine .inr ?_
        rcases hcascades.caused id with hsame | ⟨-, hinactive⟩ | hblocked
        · exact .inl (hsame.trans ((update_of_ne (Ne.symm hother) _ _).trans hpending))
        · rw [activatedBy, hactive, Bool.true_or] at hinactive
          cases hinactive
        · exact .inr hblocked
    | full hchosen hout =>
      rw [hrun, hout]
      exact .inr (.inl hpending)
    | moved hchosen st hstate hactivated htaken =>
      by_cases hother : other = id
      · refine .inl ?_
        rw [takenBy, hphase, hother.symm]
        simp [htaken]
      · exact .inr (.inl (hupdate hother (hrun ▸ hstate)))
  | passed now wr hrunning hpassed hrouted hstate =>
    have hne : wr.step.id ≠ id := by
      rintro rfl
      simp [hpending] at hrunning
    exact .inr (.inl (hupdate hne hstate))
  | settled ev other st hother hstate =>
    have hne : other ≠ id := by
      rintro rfl
      simp [hpending] at hother
    exact .inr (.inl (hupdate hne hstate))
  | reset now hphase hrolled hrun =>
    rw [hrun]
    refine .inr (.inl ?_)
    rcases resetLoop_changes s.run s.loopTarget id with hsame | ⟨st, hst, rfl⟩
    · exact hsame.trans hpending
    · exact hst
  | swept now hphase hrun =>
    rw [hrun]
    rcases (skipUnreachable_cascades s.run).caused id with hsame | ⟨-, hinactive⟩ | hblocked
    · exact .inr (.inl (hsame.trans hpending))
    · simp [hactive] at hinactive
    · exact .inr (.inr hblocked)
  | still ev hstate =>
    rw [hstate]
    exact .inr (.inl hpending)

theorem Moves.activated_mono (hactive : s.run.activated id = true) : t.run.activated id = true := by
  cases hmoves with
  | dispatched now other ids hphase hrun =>
    rw [hrun]
    cases dispatchStep_turned e s other with
    | routed chosen hchosen hout =>
      have hafter := (routeSplit_cascades s.run (byID s.run.wf other) chosen).2
      rw [hout]
      change (s.run.routeSplit (byID s.run.wf other) chosen).activated id = true
      rw [hafter, activatedBy, hactive, Bool.true_or]
    | full hchosen hout =>
      rw [hout]
      exact hactive
    | moved hchosen st hstate hactivated =>
      rw [hactivated]
      exact hactive
  | passed now wr hrunning hpassed hrouted hstate hactivated =>
    rw [hactivated, hactive, Bool.true_or]
  | settled ev other st hother hstate hactivated | still ev hstate hactivated =>
    exact hactivated ▸ hactive
  | reset now hphase hrolled hrun | swept now hphase hrun =>
    rw [hrun]
    exact hactive

theorem Moves.new_activated (hactive : t.run.activated id = true) :
    s.run.activated id = true ∨
      (∃ split chosen, routedBy e s ev = some (split, chosen) ∧ id ∈ chosen) ∨
      ∃ step, passedBy e s ev = some step ∧ (step.onPass.any fun next => next.next = id) = true := by
  cases hmoves with
  | dispatched now other ids hphase hrun =>
    rw [hrun] at hactive
    cases dispatchStep_turned e s other with
    | routed chosen hchosen hout =>
      rw [hout] at hactive
      have hafter := (routeSplit_cascades s.run (byID s.run.wf other) chosen).2
      change (s.run.routeSplit (byID s.run.wf other) chosen).activated id = true at hactive
      rw [hafter, activatedBy, or_eq_true] at hactive
      rcases hactive with hold | hnew
      · exact .inl hold
      · obtain ⟨b, -, hb⟩ := any_eq_true.mp hnew
        simp only [and_eq_true, decide_eq_true_eq] at hb
        refine .inr (.inl ⟨other, chosen, ?_, hb.1.2 ▸ hb.2⟩)
        simp [routedBy, hphase, hchosen]
    | full hchosen hout =>
      rw [hout] at hactive
      exact .inl hactive
    | moved hchosen st hstate hactivated =>
      rw [hactivated] at hactive
      exact .inl hactive
  | passed now wr hrunning hpassed hrouted hstate hactivated =>
    rw [hactivated, or_eq_true] at hactive
    refine hactive.imp_right fun hnext => .inr ⟨wr.step, hpassed, ?_⟩
    cases hpass : wr.step.onPass with
    | none => simp [hpass] at hnext
    | some =>
      simp only [hpass, Option.any_some, and_eq_true, decide_eq_true_eq] at hnext ⊢
      exact hnext.2
  | settled ev other st hother hstate hactivated | still ev hstate hactivated =>
    exact .inl (hactivated ▸ hactive)
  | reset now hphase hrolled hrun | swept now hphase hrun =>
    rw [hrun] at hactive
    exact .inl hactive

end Steps

end Apiary.Workflow
