import Apiary.Workflow.Invariants

/-!
# What a run that ends done has done

As long as every park is entered with nothing else in flight, each running step
is in flight, so a run that goes quiescent has settled every declared step and
thrown nothing away.
-/

namespace Apiary.Workflow

open Config List Machine Function DriveState

variable {id : String} {wr : WorkerResult}

def settledStatuses : List (Option Status) := [some .passed, some .condSkipped, some .skipped]

/-- Every declared step settled, and no result or requested loop-back was thrown
away. -/
def AllApplied (s : DriveState) : Prop :=
  (∀ id ∈ order s.run.wf, s.run.state id ∈ settledStatuses) ∧ s.lost = []

/-- The condition on a step under which parks lose nothing: a result that parks
the run is taken only when it is the last one in flight and no loop-back waits to
be carried out. -/
def parksQuietly (s : DriveState) : Event → Bool
  | .sched _ =>
    match s.phase, s.resultCh with
    | .recv, wr :: _ =>
      s.run.stopped || !parks wr || (s.inFlight == 1 && s.loopTarget == "")
    | _, _ => true
  | _ => true

/-- The accounting the loop keeps under quiet parks. -/
structure Accounted (s : DriveState) : Prop where
  running : s.run.stopped = false → ∀ id, s.run.state id = some .running →
    id ∈ s.inFlightIDs ∨ ∃ wr, s.phase = .drain wr ∧ wr.step.id = id
  lost : s.run.stopped = false → s.lost = []
  drained : ∀ wr, s.phase = .drain wr → s.inFlight = 0 ∧ s.loopTarget = ""
  done : s.phase = .ended .done → s.run.stopped = false ∧
    ∀ id ∈ order s.run.wf, s.run.state id ∈ settledStatuses

section Steps

variable {e : Engine} {s t : DriveState}

variable (ha : Accounted s)

include ha

theorem Accounted.running_mem (hphase : ∀ wr, s.phase ≠ .drain wr)
    (hstopped : s.run.stopped = false) (hrunning : s.run.state id = some .running) :
    id ∈ s.inFlightIDs := by
  rcases ha.running hstopped id hrunning with hmem | ⟨wr, hdrain, -⟩
  · exact hmem
  · exact absurd hdrain (hphase wr)

/-- Steps of the loop after which every running step was running before, or is
newly in flight. -/
theorem Accounted.move (hfrom : ∀ wr, s.phase ≠ .drain wr)
    (hids : ∀ id ∈ s.inFlightIDs, id ∈ t.inFlightIDs)
    (hstate : ∀ id, t.run.state id = some .running →
      s.run.state id = some .running ∨ id ∈ t.inFlightIDs)
    (hstopped : t.run.stopped = s.run.stopped) (hlost : t.lost = s.lost)
    (hdrained : ∀ wr, t.phase ≠ .drain wr) (hdone : t.phase ≠ .ended .done) : Accounted t where
  running := by
    intro hno id hrunning
    rcases hstate id hrunning with hold | hmem
    · exact .inl (hids id (ha.running_mem hfrom (hstopped ▸ hno) hold))
    · exact .inl hmem
  lost := by
    intro hno
    rw [hlost]
    exact ha.lost (hstopped ▸ hno)
  drained := fun wr hphase => absurd hphase (hdrained wr)
  done := fun hphase => absurd hphase hdone

variable (hs : WellFormed s)

include hs

theorem Accounted.dispatched {ids : List String} (hphase : s.phase = .dispatch (id :: ids))
    {out : DriveState × Bool} (hout : Dispatched s (byID s.run.wf id) id out) :
    Accounted { out.1 with phase := if out.2 then .check else .dispatch ids } := by
  have hfrom : ∀ wr, s.phase ≠ .drain wr := by simp [hphase]
  have hid : id ∈ order s.run.wf := (cons_subset.mp (hs.picked _ hphase)).1
  have hlaunch : ∀ {t : DriveState}, t.run = s.run.setState id .running → t.lost = s.lost →
      t.phase = .dispatch ids → t.inFlightIDs.Perm (id :: s.inFlightIDs) → Accounted t := by
    intro t hrun hlost hto hperm
    refine ha.move hfrom (fun _ h => hperm.mem_iff.mpr (mem_cons_of_mem _ h)) ?_ (by rw [hrun]; rfl)
      hlost (by simp [hto]) (by simp [hto])
    intro other hother
    rw [hrun] at hother
    by_cases heq : other = id
    · exact .inr (hperm.mem_iff.mpr (heq ▸ mem_cons_self))
    · exact .inl ((setState_of_ne _ heq _).symm.trans hother)
  cases hout with
  | errored | asked => exact hlaunch rfl rfl rfl (push_inFlightIDs s (byID_id hid) _)
  | condSkipped =>
    refine ha.move hfrom (fun _ h => h) ?_ rfl rfl (by simp) (by simp)
    intro other hother
    have hchange : ChangesTo (fun st => st = .condSkipped) s.run.state
        (s.run.markCondSkipped id).state := ChangesTo.update _ _ rfl
    exact .inl (hchange.of_not_allowed (by simp) hother)
  | routed chosen =>
    obtain ⟨state, -, heq⟩ := routeSplit_eq s.run (byID s.run.wf id) chosen
    refine ha.move hfrom (fun _ h => h) ?_ (by rw [heq]) rfl (by simp) (by simp)
    exact fun other hother =>
      .inl ((routeSplit_changes s.run _ chosen).of_not_allowed (by simp) hother)
  | full => exact ha.move hfrom (fun _ h => h) (fun _ h => .inl h) rfl rfl (by simp) (by simp)
  | spawned => exact hlaunch rfl rfl rfl (spawn_inFlightIDs s (byID_id hid))

theorem Accounted.not_running (hphase : s.phase = .check) (hnone : s.inFlight = 0)
    (hstopped : s.run.stopped = false) (id : String) : s.run.state id ≠ some .running := by
  intro hstate
  have hmem := ha.running_mem (by simp [hphase]) hstopped hstate
  rw [hs.inFlightIDs_eq_nil hnone] at hmem
  exact not_mem_nil hmem

theorem Accounted.settled (hphase : s.phase = .check) (hnone : s.inFlight = 0)
    (hstopped : s.run.stopped = false) (hdone : finalOutcome s.run = .done)
    (hid : id ∈ order s.run.wf) : s.run.state id ∈ settledStatuses := by
  have hfailed : s.run.state id ≠ some .failed := by
    intro hstate
    have hany : (order s.run.wf).any (fun id => s.run.state id = some .failed) = true :=
      any_eq_true.mpr ⟨id, hid, by simpa using hstate⟩
    simp [finalOutcome, hany] at hdone
  have hpending : s.run.state id ≠ some .pending := by
    intro hstate
    have hmem : id ∈ strandedSteps s.run := mem_filter.mpr ⟨hid, by simpa using hstate⟩
    have hne : strandedSteps s.run ≠ [] := ne_nil_of_mem hmem
    have hstranded : finalOutcome s.run = .failed := by
      rw [finalOutcome, if_pos hne]
      exact ite_self _
    simp [hstranded] at hdone
  have hrunning := ha.not_running hs hphase hnone hstopped id
  have hwaiting := hs.not_waiting (by simp [hphase]) id
  have hdeclared := hs.declared id hid
  cases hstate : s.run.state id with
  | none => exact absurd hstate hdeclared
  | some st => cases st <;> simp_all [settledStatuses]

theorem Accounted.quiesced (hphase : s.phase = .check) (hnone : s.inFlight = 0)
    (hstep : Quiesced s t) : Accounted t := by
  have hfrom : ∀ wr, s.phase ≠ .drain wr := by simp [hphase]
  cases hstep with
  | stopped | failed =>
    exact ha.move hfrom (fun _ h => h) (fun _ h => .inl h) rfl rfl (by simp) (by simp)
  | reset =>
    refine ha.move hfrom (fun _ h => h) ?_ rfl rfl (by simp) (by simp)
    intro id hid
    exact .inl ((resetLoop_changes s.run s.loopTarget).of_not_allowed (by simp) hid)
  | skipped =>
    refine ha.move hfrom (fun _ h => h) ?_ rfl rfl (by simp) (by simp)
    intro id hid
    exact .inl ((skipUnreachable_skips s.run).changes.of_not_allowed (by simp) hid)
  | again => exact ha.move hfrom (fun _ h => h) (fun _ h => .inl h) rfl rfl (by simp) (by simp)
  | ended hstopped =>
    refine ⟨?_, ha.lost, by simp, ?_⟩
    · intro hno id hrunning
      exact .inl (ha.running_mem hfrom hno hrunning)
    · intro hdone
      rw [Phase.ended.injEq] at hdone
      exact ⟨hstopped, fun id hid => ha.settled hs hphase hnone hstopped hdone hid⟩

omit hs in
theorem Accounted.received {rest : List WorkerResult} (hphase : s.phase = .recv)
    (hresult : s.resultCh = wr :: rest)
    (hquiet : s.run.stopped = false → parks wr = true → s.inFlight = 1 ∧ s.loopTarget = "")
    (hstep : Received e (s.take rest) wr t) : Accounted t := by
  have hfrom : ∀ wr, s.phase ≠ .drain wr := by simp [hphase]
  have hids : ∀ id ∈ s.inFlightIDs, id = wr.step.id ∨ id ∈ (s.take rest).inFlightIDs := by
    intro id hid
    simp only [DriveState.inFlightIDs, hresult, DriveState.take, map_cons, mem_append,
      mem_cons] at hid ⊢
    grind
  cases hstep with
  | dropped hstopped =>
    refine ⟨?_, ?_, by simp, by simp⟩
    · intro hno
      cases hstopped.symm.trans hno
    · intro hno
      cases hstopped.symm.trans hno
  | parking hstopped hparks =>
    obtain ⟨hone, hloop⟩ := hquiet hstopped hparks
    refine ⟨?_, ha.lost, ?_, by simp⟩
    · intro hno id hrunning
      rcases hids id (ha.running_mem hfrom hno hrunning) with heq | hmem
      · exact .inr ⟨wr, rfl, heq.symm⟩
      · exact .inl hmem
    · intro wr' _
      exact ⟨by simp [DriveState.take, hone], hloop⟩
  | applied hstopped hparks t happlied =>
    obtain ⟨st, hst, hstate⟩ := happlied.state_eq
    obtain ⟨-, hsame⟩ := happlied.frame
    obtain ⟨_, _, _, rfl⟩ := happlied.eq
    refine ⟨?_, fun hno => ha.lost (hsame.symm.trans hno), by simp, by simp⟩
    intro hno id hrunning
    rw [hstate] at hrunning
    by_cases hid : id = wr.step.id
    · subst hid
      rcases hst with rfl | rfl | rfl <;> simp at hrunning
    · rw [Function.update_of_ne hid] at hrunning
      have hmem := hids id (ha.running_mem hfrom (hsame.symm.trans hno) hrunning)
      exact .inl (hmem.resolve_left hid)

theorem Accounted.parked (now : ℕ) (hphase : s.phase = .drain wr) (hnone : s.inFlight = 0) :
    Accounted (s.park now wr) := by
  obtain ⟨_, _, _, hpark⟩ := enterPark_eq s.run now wr
  rw [park, hpark]
  have hloop := (ha.drained wr hphase).2
  refine ⟨?_, ?_, by simp, by simp⟩
  · intro hno id hrunning
    by_cases hid : id = wr.step.id
    · simp [hid] at hrunning
    · dsimp only at hrunning
      rw [Function.update_of_ne hid] at hrunning
      have hcases := ha.running hno id hrunning
      rw [hs.inFlightIDs_eq_nil hnone, hphase] at hcases
      simp only [not_mem_nil, Phase.drain.injEq, false_or] at hcases
      obtain ⟨wr', rfl, heq⟩ := hcases
      exact absurd heq.symm hid
  · intro hno
    have hlost := ha.lost hno
    simp [hloop, hlost]

omit hs in
theorem Accounted.leavePark (hphase : s.phase = .parked) {st : Status} (hst : st ≠ .running)
    {contrib stepStates child history} :
    Accounted (s.leavePark st contrib stepStates child history) := by
  have hchange : ChangesTo (fun st => st ≠ .running) s.run.state
      (update s.run.state s.run.waitingStep (some st)) := ChangesTo.update _ _ hst
  exact ha.move (by simp [hphase]) (fun _ h => h)
    (fun id hid => .inl (hchange.of_not_allowed (by simp) hid)) rfl rfl
    (by simp [DriveState.leavePark]) (by simp [DriveState.leavePark])

theorem Accounted.scheduled {now : ℕ} (hquiet : parksQuietly s (.sched now) = true)
    (hstep : SchedStepped e now s t) : Accounted t := by
  have hmove : ∀ phase, (∀ wr, s.phase ≠ .drain wr) → (∀ wr, phase ≠ .drain wr) →
      phase ≠ .ended .done → Accounted { s with phase := phase } :=
    fun phase hfrom hdrained hdone =>
      ha.move hfrom (fun _ h => h) (fun _ h => .inl h) rfl rfl hdrained hdone
  cases hstep with
  | hold hphase | picked hphase => exact hmove .check (by simp [hphase]) (by simp) (by simp)
  | pick hphase => exact hmove _ (by simp [hphase]) (by simp) (by simp)
  | dispatch id ids hphase out hout => exact ha.dispatched hs hphase hout
  | quiesce hphase hnone t hquiesced => exact ha.quiesced hs hphase hnone hquiesced
  | await hphase => exact hmove .recv (by simp [hphase]) (by simp) (by simp)
  | receive wr rest hphase hresult t hreceived =>
    refine ha.received hphase hresult ?_ hreceived
    intro hstopped hparks
    simpa [parksQuietly, hphase, hresult, hstopped, hparks] using hquiet
  | discard wr dropped rest hphase hsome => exact absurd (ha.drained wr hphase).1 hsome
  | park wr hphase hnone => exact ha.parked hs now hphase hnone

omit hs in
theorem Accounted.worked {index : ℕ} {w : Worker} {act : WorkerAct}
    (hw : s.workers[index]? = some w) (hstep : WorkerStepped e s index w act t) : Accounted t := by
  have hids : ∀ id ∈ s.inFlightIDs, id ∈ t.inFlightIDs :=
    fun id hid => (workerStepped_inFlightIDs hw hstep).mem_iff.mpr hid
  obtain ⟨_, _, _, _, _, rfl⟩ := workerStepped_eq hstep
  refine ⟨?_, ha.lost, ha.drained, ha.done⟩
  intro hno id hrunning
  exact (ha.running hno id hrunning).imp_left (hids id)

theorem Accounted.step {ev : Event} (hquiet : parksQuietly s ev = true)
    (hstep : step e s ev = some t) : Accounted t := by
  cases step_cases hstep with
  | sched now t hsched => exact ha.scheduled hs hquiet hsched
  | worker index act w hw t hworker => exact ha.worked hw hworker
  | cancel => exact ⟨ha.running, ha.lost, ha.drained, ha.done⟩
  | stop hdriving =>
    refine ⟨by simp, by simp, ha.drained, ?_⟩
    intro hphase
    have hended : s.phase = .ended .done := hphase
    simp [hended, Phase.driving] at hdriving
  | resolve approve memory hphase =>
    have hst : (if approve then Status.passed else .failed) ≠ .running := by
      cases approve <;> decide
    exact ha.leavePark hphase hst
  | wake hphase =>
    have hst : Status.pending ≠ .running := by decide
    exact ha.leavePark hphase hst

end Steps

/-! ## Runs -/

theorem Started.accounted {s : DriveState} (hstarted : Started s) : Accounted s := by
  have hrunning := hstarted.state_ne .running (by decide) (by decide) (by decide)
  cases hstarted <;> exact ⟨fun _ id h => absurd h (hrunning id), fun _ => rfl, by simp, by simp⟩

/-- In every run whose parks are quiet, whatever the workflow, the concurrency
limit, the interleaving and the results, ending done means that every declared
step settled and that nothing was thrown away. -/
theorem ended_done_allApplied (e : Engine) {s t : DriveState} {es : List Event}
    (hinit : Initial s)
    (hquiet : Machine.Guarded (step e) (fun s ev => parksQuietly s ev = true) s es)
    (hrun : exec (step e) s es = some t) (hdone : t.phase = .ended .done) :
    AllApplied t := by
  have hkept : ∀ s ev s', WellFormed s ∧ Accounted s → parksQuietly s ev = true →
      step e s ev = some s' → WellFormed s' ∧ Accounted s' := by
    intro s ev s' hs hguard hstep
    exact ⟨hs.1.step hstep, hs.2.step hs.1 hguard hstep⟩
  have hinv := exec_invariant hkept
    ⟨hinit.started.wellFormed, hinit.started.accounted⟩ hquiet hrun
  obtain ⟨hstopped, hsettled⟩ := hinv.2.done hdone
  exact ⟨hsettled, hinv.2.lost hstopped⟩

/-! ## A release workflow

A build and an approval gate run side by side after a common first step, two at a
time.  The same workflow shows a quiet park and one that is not. -/

def releaseWorkflow : WorkflowConfig where
  id := "release"
  steps :=
    [{ id := "start" }, { id := "build", seqDependsOn := ["start"] },
     { id := "gate", type := .approval, seqDependsOn := ["start"], approvers := ["alice"] }]

def releaseStart : DriveState := { run := initDAG "wf-1" releaseWorkflow {} [] fun _ => none }

/-- The loop dispatches `start`, and its worker passes. -/
def startPasses : List Event := List.replicate 4 (.sched 0) ++ runWorker 0 { success := true }

/-- `build` reports before the gate is dispatched, so the gate parks alone. -/
def buildThenGate : List Event :=
  startPasses ++ List.replicate 3 (.sched 0) ++ runWorker 0 { success := true } ++
    List.replicate 9 (.sched 0) ++ [.resolve true {}] ++ List.replicate 3 (.sched 0)

/-- The gate is taken off the channel while `build` is still running; `build`
then fails, and the approval is granted. -/
def gateThenBuildFails : List Event :=
  startPasses ++ List.replicate 7 (.sched 0) ++ runWorker 0 { output := "build failed" } ++
    List.replicate 2 (.sched 0) ++ [.resolve true {}] ++ List.replicate 3 (.sched 0)

theorem releaseStart_initial : Initial releaseStart := Initial.fresh "wf-1" releaseWorkflow {} [] _

theorem release_buildThenGate_allApplied :
    ∃ t, exec (step (plainEngine 2)) releaseStart buildThenGate = some t ∧
      t.phase = .ended .done ∧ AllApplied t := by
  have hdone : ((exec (step (plainEngine 2)) releaseStart buildThenGate).get
      (by decide)).phase = .ended .done := Phase.outcome?_eq_some (by decide)
  refine ⟨_, exec_get (by decide), hdone, ?_⟩
  exact ended_done_allApplied (plainEngine 2) releaseStart_initial (by decide) (exec_get _) hdone

/-- The run ends done although `build` failed: its result was discarded while the
gate drained, and the step is left running. -/
theorem release_gateThenBuildFails_not_allApplied :
    ∃ t, exec (step (plainEngine 2)) releaseStart gateThenBuildFails = some t ∧
      t.phase = .ended .done ∧ t.run.state "build" = some .running ∧ t.lost.length = 1 ∧
      ¬ AllApplied t := by
  refine ⟨_, exec_get (by decide), Phase.outcome?_eq_some (by decide), by decide, by decide, ?_⟩
  exact fun happlied => nomatch congrArg List.length happlied.2

end Apiary.Workflow
