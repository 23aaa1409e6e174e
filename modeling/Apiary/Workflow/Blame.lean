import Apiary.Workflow.Retries

/-!
# The steps a run fails because of

A run fails for good when a result is taken as an irrecoverable failure, when a
waiting step is rejected, or when the loop goes quiescent with steps it never
ran.  The machine here records the first two beside the scheduler: the failing
step together with the kind of its failure.
-/

namespace Apiary.Workflow

open Config List Option Machine Function

variable {now : ℕ} {wr : WorkerResult} {rest : List WorkerResult} {ev : Event} {key : EdgeKey}

structure Blamed where
  drive : DriveState
  blamed : List EdgeKey := []

/-- The step that an event makes the run fail because of. -/
def failuresOf (e : Engine) (s t : DriveState) : Event → List EdgeKey
  | .sched _ =>
    match s.phase, s.resultCh with
    | .recv, wr :: rest =>
      if !s.termFail && t.termFail then
        [(failureKind wr.step (gated e (s.take rest) wr).1, wr.step.id)]
      else []
    | _, _ => []
  | .resolve approve _ => if approve then [] else [(false, s.run.waitingStep)]
  | _ => []

def Blamed.step (e : Engine) (b : Blamed) (ev : Event) : Option Blamed :=
  (Workflow.step e b.drive ev).map fun t =>
    { drive := t, blamed := failuresOf e b.drive t ev ++ b.blamed }

/-- The condition under which every failure can use its own route: no failing
result is taken while the loop-back of another step still waits to be carried
out, and no step is rejected that has an `on_fail` route with budget left. -/
def retriesFreely (e : Engine) (s : DriveState) : Event → Bool
  | .sched _ =>
    match s.phase, s.resultCh with
    | .recv, wr :: rest =>
      s.run.stopped || parks wr || s.termFail || s.loopTarget == "" ||
        (gated e (s.take rest) wr).1.success
    | _, _ => true
  | .resolve approve _ =>
    approve || (loopEdge (byID s.run.wf s.run.waitingStep).onFail
      (s.run.retries s.run.waitingStep)).isNone
  | _ => true

section Steps

variable {e : Engine} {s t : DriveState}

theorem schedStep_recv (hphase : s.phase = .recv) (hresult : s.resultCh = wr :: rest) :
    schedStep e now s = some ((s.take rest).receive e wr) := by
  rw [schedStep, hphase]
  dsimp only
  rw [hresult]
  rfl

/-- A result becomes an irrecoverable failure when no edge takes it. -/
theorem applyResult_termFail (hfail : s.termFail = false)
    (hterm : (s.applyResult e wr).termFail = true) :
    (gated e s wr).1.success = false ∧
      failureTarget (recorded e s wr) wr.step (gated e s wr).1 = none := by
  change (if (gated e s wr).1.success then
      { recorded e s wr with run := (recorded e s wr).run.passStep wr (gated e s wr).1 }
    else (recorded e s wr).failStep wr (gated e s wr).1).termFail = true at hterm
  split_ifs at hterm with hsuccess
  · nomatch hfail.symm.trans hterm
  · refine ⟨by simpa using hsuccess, ?_⟩
    rw [DriveState.failStep] at hterm
    split at hterm
    · nomatch hfail.symm.trans hterm
    · assumption

/-- The three ways a step bears on failure. -/
inductive Fails (e : Engine) (s t : DriveState) : Event → Prop where
  | none (ev : Event) (hquiet : failuresOf e s t ev = [])
      (hterm : t.termFail = true → s.termFail = true)
      (hstate : ChangesTo (fun st => st ≠ .failed) s.run.state t.run.state) : Fails e s t ev
  | result (now : ℕ) (wr : WorkerResult) (rest : List WorkerResult) (hphase : s.phase = .recv)
      (hresult : s.resultCh = wr :: rest) (hstopped : s.run.stopped = false)
      (hparks : parks wr = false) (happlied : t = (s.take rest).applyResult e wr)
      (hterm : t.termFail = true) : Fails e s t (.sched now)
  | rejected (memory : ApprovalMemory) : Fails e s t (.resolve false memory)

theorem Fails.sched (now : ℕ) (hterm : t.termFail = true → s.termFail = true)
    (hstate : ChangesTo (fun st => st ≠ .failed) s.run.state t.run.state) :
    Fails e s t (.sched now) := by
  refine .none _ ?_ hterm hstate
  rw [failuresOf]
  split
  · refine if_neg ?_
    simpa using fun hfree => Bool.eq_false_iff.mpr fun h => nomatch hfree.symm.trans (hterm h)
  · rfl

theorem receive_fails (hphase : s.phase = .recv) (hresult : s.resultCh = wr :: rest) :
    Fails e s ((s.take rest).receive e wr) (.sched now) := by
  rw [DriveState.receive]
  split
  · exact .sched _ id (ChangesTo.refl _)
  · rename_i hstopped
    split_ifs with hparks
    · exact .sched _ id (ChangesTo.refl _)
    · by_cases hterm : ((s.take rest).applyResult e wr).termFail = true
      · exact .result now wr rest hphase hresult (Bool.not_eq_true _ ▸ hstopped) (by simpa using hparks)
          rfl hterm
      · refine .sched _ (fun h => absurd h hterm) ?_
        have happlied := applyResult_cases e (s.take rest) wr
        generalize hnext : (s.take rest).applyResult e wr = next at hterm happlied
        obtain ⟨st, hst, hstate⟩ := happlied.state_eq
        rw [hstate]
        refine ChangesTo.update _ _ ?_
        rintro rfl
        cases happlied with
        | passed =>
          have hself := congrFun hstate wr.step.id
          simp [DagRun.passStep, DagRun.setState] at hself
        | retried =>
          have hself := congrFun hstate wr.step.id
          simp [retryStep_state] at hself
        | failed => exact hterm rfl

theorem SchedStepped.fails (hstep : SchedStepped e now s t) (hphase : s.phase ≠ .recv) :
    Fails e s t (.sched now) := by
  cases hstep with
  | dispatch id ids hdispatch out hout =>
    exact .sched _ (fun h => hout.frame.2.1 ▸ h) (hout.changes.mono fun _ h => h.2.2)
  | quiesce hcheck hnone t hquiesced =>
    cases hquiesced with
    | reset => exact .sched _ (fun h => h) ((resetLoop_changes s.run s.loopTarget).mono (by simp))
    | skipped => exact .sched _ (fun h => h) ((skipUnreachable_skips s.run).changes.mono (by simp))
    | _ => exact .sched _ (fun h => h) (ChangesTo.refl _)
  | receive wr rest hrecv => exact absurd hrecv hphase
  | park wr =>
    obtain ⟨_, _, _, hpark⟩ := enterPark_eq s.run now wr
    rw [DriveState.park, hpark]
    exact .sched _ (by simp) (ChangesTo.update _ _ (by decide))
  | _ => exact .sched _ (fun h => h) (ChangesTo.refl _)

section

variable (hstep : Workflow.step e s ev = some t)

include hstep

theorem step_fails : Fails e s t ev := by
  cases step_cases hstep with
  | sched now t hsched =>
    by_cases hphase : s.phase = .recv
    · cases hresult : s.resultCh with
      | nil => simp [Workflow.step, schedStep, hphase, hresult] at hstep
      | cons =>
        rw [Workflow.step, schedStep_recv hphase hresult, some.injEq] at hstep
        exact hstep ▸ receive_fails hphase hresult
    · exact hsched.fails hphase
  | worker index act w hw t hworker =>
    obtain ⟨_, _, _, _, _, rfl⟩ := workerStepped_eq hworker
    exact .none _ rfl (fun h => h) (ChangesTo.refl _)
  | cancel | stop => exact .none _ rfl (fun h => h) (ChangesTo.refl _)
  | resolve approve memory =>
    cases approve with
    | true => exact .none _ rfl (fun h => h) (ChangesTo.update _ _ (by decide))
    | false => exact .rejected memory
  | wake => exact .none _ rfl (fun h => h) (ChangesTo.update _ _ (by decide))

/-! ## Blamed steps are exhausted -/

theorem used_mono (key : EdgeKey) : s.run.used key ≤ t.run.used key := by
  cases step_looped hstep with
  | kept _ hused | reset now hphase hloop hclear hresets hused | woken htop hused => rw [hused]
  | retried now wr kind hphase hmem hfree hbudget hused =>
    rw [hused]
    by_cases hkey : key = (kind, wr.step.id)
    · rw [hkey, Function.update_self]
      exact Nat.le_succ _
    · rw [Function.update_of_ne hkey]

theorem Exhausted.step (hkey : Exhausted s.run key) : Exhausted t.run key := by
  intro o hedge
  rw [step_wf hstep] at hedge
  exact (hkey o hedge).imp_right fun hused => hused.trans (used_mono hstep key)

/-- Under the condition, whatever the run fails because of had no way back. -/
theorem failuresOf_exhausted (hi : Indexed s) (hguard : retriesFreely e s ev = true)
    (hkey : key ∈ failuresOf e s t ev) : Exhausted s.run key := by
  cases step_fails hstep with
  | none _ hquiet =>
    rw [hquiet] at hkey
    exact absurd hkey not_mem_nil
  | result now wr rest hphase hresult hstopped hparks happlied hterm =>
    have hself := hi wr.step (mem_append_right _ (List.mem_map_of_mem
      (hresult ▸ mem_cons_self)))
    simp only [failuresOf, hphase, hresult] at hkey
    split_ifs at hkey with hflags
    · simp only [Bool.and_eq_true, Bool.not_eq_true'] at hflags
      rw [mem_singleton] at hkey
      subst hkey
      rw [happlied] at hterm
      obtain ⟨hsuccess, htarget⟩ := applyResult_termFail (s := s.take rest) hflags.1 hterm
      have hfree : s.loopTarget = "" := by
        simpa [retriesFreely, hphase, hresult, hstopped, hparks, hflags.1, hsuccess] using hguard
      have hclosed : (recorded e (s.take rest) wr).run.used = s.run.used := closeWindow_used _ _
      rw [failureTarget_eq (s := recorded e (s.take rest) wr) hflags.1 hfree, hclosed] at htarget
      intro o hedge
      refine loopEdge_eq_none htarget o ?_
      rw [← hedge, ← hself]
    · exact absurd hkey not_mem_nil
  | rejected =>
    rw [failuresOf, if_neg (by decide), mem_singleton] at hkey
    subst hkey
    simp only [retriesFreely, Bool.false_or, isNone_iff_eq_none] at hguard
    exact loopEdge_eq_none hguard

end

/-- What the record says about the run. -/
structure Accused (b : Blamed) : Prop where
  exhausted : ∀ key ∈ b.blamed, Exhausted b.drive.run key
  terminal : b.drive.termFail = true → b.blamed ≠ []
  failed : ∀ id, b.drive.run.state id = some .failed → b.blamed ≠ []
  ended : b.drive.phase = .ended .failed → b.blamed ≠ [] ∨ strandedSteps b.drive.run ≠ []

theorem finalOutcome_failed {r : DagRun} (hfailed : finalOutcome r = .failed) :
    (∃ id, r.state id = some .failed) ∨ strandedSteps r ≠ [] := by
  rw [finalOutcome] at hfailed
  split at hfailed
  · rename_i hany
    obtain ⟨id, -, hid⟩ := List.any_eq_true.mp hany
    exact .inl ⟨id, by simpa using hid⟩
  · split_ifs at hfailed
    exact .inr ‹_›

/-- A run ends failed only where the loop body finds it so. -/
theorem step_ended_failed (hstep : Workflow.step e s ev = some t)
    (hended : t.phase = .ended .failed) :
    (s.phase = .ended .failed ∧ t.run = s.run) ∨
      (t.run = s.run ∧ (s.termFail = true ∨ finalOutcome s.run = .failed)) := by
  cases step_cases hstep with
  | sched now t hsched =>
    right
    cases hsched with
    | dispatch id ids hphase out => cases hflag : out.2 <;> simp [hflag] at hended
    | quiesce hphase hnone t hquiesced =>
      cases hquiesced with
      | failed hstopped hfail => exact ⟨rfl, .inl hfail⟩
      | ended => exact ⟨rfl, .inr (by simpa using hended)⟩
      | _ => simp at hended
    | receive wr rest hphase hresult t hreceived =>
      cases hreceived with
      | applied hstopped hparks t happlied =>
        obtain ⟨_, _, _, rfl⟩ := happlied.eq
        cases hended
      | _ => simp at hended
    | discard wr dropped rest hphase => simp [DriveState.take, hphase] at hended
    | park => simp [DriveState.park] at hended
    | _ => simp at hended
  | worker index act w hw t hworker =>
    obtain ⟨_, _, _, _, _, rfl⟩ := workerStepped_eq hworker
    exact .inl ⟨hended, rfl⟩
  | cancel err hdriving | stop hdriving =>
    have hphase : s.phase = .ended .failed := hended
    simp [hphase, Phase.driving] at hdriving
  | resolve | wake => cases hended

theorem step_blames (hstep : Workflow.step e s ev = some t)
    (hfailed : t.termFail = true ∨ ∃ id, t.run.state id = some .failed) :
    failuresOf e s t ev ≠ [] ∨ s.termFail = true ∨ ∃ id, s.run.state id = some .failed := by
  cases step_fails hstep with
  | none _ hquiet hterm hstate =>
    right
    rcases hfailed with hfailed | ⟨id, hid⟩
    · exact .inl (hterm hfailed)
    · exact .inr ⟨id, hstate.of_not_allowed (by simp) hid⟩
  | result now wr rest hphase hresult hstopped hparks happlied hterm =>
    cases hold : s.termFail with
    | true => exact .inr (.inl rfl)
    | false =>
      left
      simp [failuresOf, hphase, hresult, hold, hterm]
  | rejected =>
    left
    simp [failuresOf]

theorem Accused.step {b c : Blamed} (ha : Accused b) (hi : Indexed b.drive)
    (hguard : retriesFreely e b.drive ev = true) (hstep : b.step e ev = some c) : Accused c := by
  obtain ⟨t, hdrive, rfl⟩ := map_eq_some_iff.mp hstep
  have hblamed : (t.termFail = true ∨ ∃ id, t.run.state id = some .failed) →
      failuresOf e b.drive t ev ++ b.blamed ≠ [] := by
    intro hfailed
    rw [Ne, append_eq_nil_iff, not_and_or]
    rcases step_blames hdrive hfailed with hnew | hold | ⟨id, hold⟩
    · exact .inl hnew
    · exact .inr (ha.terminal hold)
    · exact .inr (ha.failed id hold)
  refine ⟨?_, fun hterm => hblamed (.inl hterm), fun id hid => hblamed (.inr ⟨id, hid⟩), ?_⟩
  · intro key hkey
    rcases mem_append.mp hkey with hnew | hold
    · exact (failuresOf_exhausted hdrive hi hguard hnew).step hdrive
    · exact (ha.exhausted key hold).step hdrive
  · intro hended
    have hkeep : b.blamed ≠ [] → failuresOf e b.drive t ev ++ b.blamed ≠ [] := by
      intro hold hnil
      exact hold (append_eq_nil_iff.mp hnil).2
    rcases step_ended_failed hdrive hended with ⟨hphase, hrun⟩ | ⟨hrun, hcause⟩
    · refine (ha.ended hphase).imp hkeep fun hstranded => ?_
      dsimp only
      rwa [hrun]
    · rcases hcause with hterm | hfinal
      · exact .inl (hkeep (ha.terminal hterm))
      · rcases finalOutcome_failed hfinal with ⟨id, hid⟩ | hstranded
        · exact .inl (hkeep (ha.failed id hid))
        · refine .inr ?_
          dsimp only
          rwa [hrun]

end Steps

theorem Started.accused {s : DriveState} (hstarted : Started s) : Accused { drive := s } := by
  have hfailed := hstarted.state_ne .failed (by decide) (by decide) (by decide)
  cases hstarted <;>
    exact ⟨fun _ h => absurd h not_mem_nil, by simp, fun id h => absurd h (hfailed id), by simp⟩

/-- In every run in which each failure meets a free loop-back slot, whatever the
workflow, the concurrency limit and the interleaving, the run fails because of a
step only if that step has no route for its kind of failure or has used up the
budget of that route; a failed run that blames no step left steps it never
ran. -/
theorem permanent_failure_exhausted (e : Engine) {s : DriveState} {es : List Event} {b : Blamed}
    (hinit : Initial s)
    (hfree : Machine.Guarded (Blamed.step e) (fun b ev => retriesFreely e b.drive ev = true)
      { drive := s } es)
    (hrun : exec (Blamed.step e) { drive := s } es = some b) :
    (∀ key ∈ b.blamed, Exhausted b.drive.run key) ∧
      (b.drive.phase = .ended .failed → b.blamed ≠ [] ∨ strandedSteps b.drive.run ≠ []) := by
  have hkept : ∀ b ev c, (WellFormed b.drive ∧ Indexed b.drive) ∧ Accused b →
      retriesFreely e b.drive ev = true → Blamed.step e b ev = some c →
      (WellFormed c.drive ∧ Indexed c.drive) ∧ Accused c := by
    intro b ev c hb hguard hstep
    have haccused := hb.2.step hb.1.2 hguard hstep
    obtain ⟨t, hdrive, rfl⟩ := map_eq_some_iff.mp hstep
    exact ⟨⟨hb.1.1.step hdrive, hb.1.2.step hb.1.1 hdrive⟩, haccused⟩
  have hstart := hinit.started
  have hinv := exec_invariant hkept
    ⟨⟨hstart.wellFormed, hstart.indexed⟩, hstart.accused⟩ hfree hrun
  exact ⟨hinv.2.exhausted, hinv.2.ended⟩

/-! ## Two checks of one change

`lint` and `tests` run side by side after `implement`; each loops back to it with
a budget of two. -/

def checksWorkflow : WorkflowConfig where
  id := "checks"
  steps :=
    [{ id := "implement" },
     { id := "lint", seqDependsOn := ["implement"], onFail := some ⟨"implement", 2⟩ },
     { id := "tests", seqDependsOn := ["implement"], onFail := some ⟨"implement", 2⟩ }]

def checksStart : DriveState := { run := initDAG "wf-1" checksWorkflow {} [] fun _ => none }

theorem checksStart_initial : Initial checksStart := Initial.fresh "wf-1" checksWorkflow {} [] _

/-- `implement` passes and both checks are dispatched. -/
def checksDispatched : List Event :=
  List.replicate 4 (.sched 0) ++ runWorker 0 { success := true } ++ List.replicate 6 (.sched 0)

/-- Both checks fail before the loop-back of the first is carried out. -/
def bothChecksFail : List Event :=
  checksDispatched ++ runWorker 0 { output := "lint failed" } ++
    runWorker 0 { output := "tests failed" } ++ List.replicate 6 (.sched 0)

/-- One at a time: `implement` passes and `lint` fails. -/
def lintLap : List Event :=
  List.replicate 4 (.sched 0) ++ runWorker 0 { success := true } ++ List.replicate 5 (.sched 0) ++
    runWorker 0 { output := "lint failed" } ++ List.replicate 3 (.sched 0)

/-- `lint` fails on three laps: its own budget is what ends the run. -/
theorem checks_lintLaps_exhausted : ∃ b, exec (Blamed.step (plainEngine 1)) { drive := checksStart }
        (lintLap ++ lintLap ++ lintLap) = some b ∧
      b.drive.phase = .ended .failed ∧ b.blamed = [(false, "lint")] ∧
      Exhausted b.drive.run (false, "lint") := by
  refine ⟨_, exec_get (by decide +kernel), Phase.outcome?_eq_some (by decide +kernel), by decide +kernel, ?_⟩
  exact (permanent_failure_exhausted (plainEngine 1) checksStart_initial (by decide +kernel)
    (exec_get _)).1 _ (by decide +kernel)

/-- `tests` ends the run with its whole budget left, because `lint` had asked for
a loop-back just before. -/
theorem checks_bothFail_not_exhausted :
    ∃ b, exec (Blamed.step (plainEngine 2)) { drive := checksStart } bothChecksFail = some b ∧
      b.drive.phase = .ended .failed ∧ b.blamed = [(false, "tests")] ∧
      ¬ Exhausted b.drive.run (false, "tests") := by
  refine ⟨_, exec_get (by decide), Phase.outcome?_eq_some (by decide), by decide, fun hexhausted => ?_⟩
  nomatch hexhausted ⟨"implement", 2⟩ (by decide)

end Apiary.Workflow
