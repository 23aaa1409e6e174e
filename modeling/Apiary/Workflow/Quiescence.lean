import Apiary.Config.Graph
import Apiary.Expr.Eval
import Apiary.Workflow.Moves
import Apiary.Workflow.Outcome

/-!
# What is left when the scheduler goes quiescent

A pending step waits for a dependency, or for a split to choose it.  When routes
only lead forward, following what it waits for ends at a step that can run or can
be skipped, so a quiescent scheduler has no pending step left.
-/

namespace Apiary.Workflow

open Config Machine List

variable {wf : WorkflowConfig}

/-- The loop is about to end on its own: nothing is in flight, nothing failed for good
or loops back, and no step can be skipped or started. -/
def DriveState.quiescent (s : DriveState) : Bool :=
  match s.phase with
  | .check =>
    s.inFlight = 0 && !s.run.stopped && !s.termFail && s.loopTarget = "" &&
      !(skipUnreachable s.run).2 && (pickAllRunnable s.run.wf s.run.state s.run.activated).isEmpty
  | _ => false

/-- A pass that changes nothing found no pending step unreachable. -/
theorem foldl_skipIfUnreachable_unchanged {activated : String → Bool} {ids : List String}
    {acc : StateMap × Bool} (hsame : (ids.foldl (skipIfUnreachable wf activated) acc).2 = false) :
    ids.foldl (skipIfUnreachable wf activated) acc = acc ∧
      ∀ id ∈ ids, acc.1 id = some .pending → unreachable wf activated acc.1 id = false := by
  induction ids generalizing acc with
  | nil => exact ⟨rfl, fun _ h => absurd h not_mem_nil⟩
  | cons id ids ih =>
    obtain ⟨heq, hrest⟩ := ih hsame
    rw [foldl_cons, heq] at hsame ⊢
    rw [skipIfUnreachable] at hsame hrest ⊢
    split_ifs at hsame with hkept
    rw [if_neg hkept] at hrest ⊢
    refine ⟨rfl, ?_⟩
    intro other hother hpending
    rcases mem_cons.mp hother with rfl | hother
    · simpa [hpending] using hkept
    · exact hrest other hother hpending

section Steps

variable {e : Engine} {s t : DriveState}

/-- A step that no split names is activated from the start. -/
def Awake (s : DriveState) : Prop :=
  ∀ id ∈ order s.run.wf, splitTarget s.run.wf id = false → s.run.activated id = true

theorem Awake.step (ha : Awake s) (ho : Ordered s) {ev : Event}
    (hstep : Workflow.step e s ev = some t) : Awake t := by
  intro id hid htarget
  rw [step_wf hstep] at hid htarget
  exact (step_moves ho hstep).activated_mono (ha id hid htarget)

/-- A declared step that is not pending has settled when nothing is in flight. -/
theorem settled_of_not_pending (hs : WellFormed s) (ha : Accounted s) (hphase : s.phase = .check)
    (hnone : s.inFlight = 0) (hstopped : s.run.stopped = false) {id : String}
    (hid : id ∈ order s.run.wf) (hpending : s.run.state id ≠ some .pending) :
    s.run.state id = some .passed ∨ Stuck (s.run.state id) := by
  have hrunning := ha.not_running hs hphase hnone hstopped id
  have hwaiting := hs.not_waiting (by simp [hphase]) id
  have hdeclared := hs.declared id hid
  cases hstate : s.run.state id with
  | none => exact absurd hstate hdeclared
  | some st => cases st <;> simp_all [Stuck]

theorem depsPassed_of_settled {state : StateMap} {id : String}
    (hsettled : ∀ dep, DependsOn wf id dep → state dep = some .passed ∨ Stuck (state dep))
    (hfree : blocked wf state id = false) : depsPassed wf state id = true := by
  rw [Bool.eq_false_iff, ne_eq, blocked_iff, not_or] at hfree
  rw [depsPassed_iff]
  constructor
  · intro dep hdep
    rcases hsettled dep (.inl hdep) with hpassed | hstuck
    · exact hpassed
    · exact absurd ⟨dep, hdep, hstuck⟩ hfree.1
  · intro dep hdep
    rcases hsettled dep (.inr hdep) with hpassed | hskipped | hfailed | hcond
    · exact .inl hpassed
    · exact absurd ⟨dep, hdep, .inl hskipped⟩ hfree.2
    · exact absurd ⟨dep, hdep, .inr hfailed⟩ hfree.2
    · exact .inr hcond

theorem quiescent_strandedSteps {ctx : String} (hvalid : validateGraph ctx s.run.wf = [])
    (hforward : routesForward s.run.wf = true) (hs : WellFormed s) (ha : Accounted s)
    (hawake : Awake s) (hquiet : s.quiescent = true) : strandedSteps s.run = [] := by
  rw [DriveState.quiescent] at hquiet
  split at hquiet
  · rename_i hphase
    simp only [Bool.and_eq_true, decide_eq_true_eq, Bool.not_eq_true', List.isEmpty_iff] at hquiet
    obtain ⟨⟨⟨⟨⟨hnone, hstopped⟩, -⟩, -⟩, hskip⟩, hpick⟩ := hquiet
    rw [strandedSteps, filter_eq_nil_iff]
    intro id hid hpending
    obtain ⟨first, ⟨hfirst, hwaits⟩, hearlier⟩ := exists_first_step hforward
      (p := fun id => id ∈ order s.run.wf ∧ s.run.state id = some .pending)
      ⟨id, hid, hid, by simpa using hpending⟩
    have hreach := (foldl_skipIfUnreachable_unchanged hskip).2 first hfirst hwaits
    rw [unreachable_eq, Bool.or_eq_false_iff] at hreach
    obtain ⟨hfree, hroute⟩ := hreach
    have hstep : byID s.run.wf first ∈ s.run.wf.steps := byID_mem hfirst
    have hname : (byID s.run.wf first).id = first := byID_id hfirst
    have hdeps : depsPassed s.run.wf s.run.state first = true := by
      refine depsPassed_of_settled (fun dep hdep => ?_) hfree
      have hdep : dep ∈ (byID s.run.wf first).deps := mem_append.mpr hdep
      have hknown := (mem_dependentsOf hvalid hstep hdep).1
      have hlead := mem_routesFrom_of_dep hvalid hstep hdep
      rw [hname] at hlead
      refine settled_of_not_pending hs ha hphase hnone hstopped hknown fun hdepPending => ?_
      exact hearlier dep hknown hlead ⟨hknown, hdepPending⟩
    have hinactive : s.run.activated first = false := by
      have hnot := List.filter_eq_nil_iff.mp hpick first hfirst
      simpa [hwaits, hdeps] using hnot
    have htarget : splitTarget s.run.wf first = true := by
      by_contra hplain
      rw [hawake first hfirst (by simpa using hplain)] at hinactive
      cases hinactive
    have hdone : feedingSplitsDone s.run.wf s.run.state first = true := by
      rw [feedingSplitsDone, all_eq_true]
      intro split hsplit
      rw [Bool.or_eq_true, all_eq_true, decide_eq_true_eq]
      refine or_iff_not_imp_left.mpr fun htype b hb => ?_
      rw [Bool.or_eq_true, decide_eq_true_eq, decide_eq_true_eq]
      refine or_iff_not_imp_left.mpr fun hgoto hsplitPending => ?_
      have hlead := mem_routesFrom_of_branch hsplit (not_not.mp htype) hb
      rw [not_not.mp hgoto] at hlead
      have hmem : split.id ∈ order s.run.wf := mem_map_of_mem hsplit
      exact hearlier split.id hmem hlead ⟨hmem, hsplitPending⟩
    rw [htarget, hinactive, hdone] at hroute
    cases hroute
  · cases hquiet

end Steps

/-! ## Runs -/

theorem fresh_awake (instID : String) (wf : WorkflowConfig) (cell : SourceItem)
    (seed : List MemoryStep) (event : String → Option String) :
    Awake { run := initDAG instID wf cell seed event } := by
  intro id hid htarget
  have hdeclared : id ∈ order wf := hid
  have hplain : splitTarget wf id = false := htarget
  simp [initDAG, hdeclared, hplain]

/-- In every fresh run of an accepted workflow whose routes only lead forward and whose
parks are quiet, whatever the expressions choose and the agents report, the scheduler
goes quiescent with no step pending. -/
theorem quiescent_none_pending (e : Engine) {ctx : String} {requireFor : List String}
    {wf : WorkflowConfig} (hvalid : validateWorkflow ctx requireFor wf = [])
    (hgraph : validateGraph ctx wf = []) (hforward : routesForward wf = true) (instID : String)
    (cell : SourceItem) (seed : List MemoryStep) (event : String → Option String)
    {es : List Event} {t : DriveState}
    (hquiet : Machine.Guarded (step e) (fun s ev => parksQuietly s ev = true)
      { run := initDAG instID wf cell seed event } es)
    (hrun : exec (step e) { run := initDAG instID wf cell seed event } es = some t)
    (hquiescent : t.quiescent = true) : strandedSteps t.run = [] := by
  have hkept : ∀ s ev s', (WellFormed s ∧ Ordered s ∧ Accounted s ∧ Awake s ∧ s.run.wf = wf) →
      parksQuietly s ev = true → step e s ev = some s' →
      WellFormed s' ∧ Ordered s' ∧ Accounted s' ∧ Awake s' ∧ s'.run.wf = wf := by
    rintro s ev s' ⟨hs, ho, ha, hawake, hwf⟩ hguard hstep
    have hnodup : (order s.run.wf).Nodup := by
      rw [hwf]
      exact validateWorkflow_nodup hvalid
    exact ⟨hs.step hstep, ho.step hs hnodup hstep, ha.step hs hguard hstep, hawake.step ho hstep,
      (step_wf hstep).trans hwf⟩
  have hstart := (Initial.fresh instID wf cell seed event).started
  obtain ⟨hs, -, ha, hawake, rfl⟩ := exec_invariant hkept
    ⟨hstart.wellFormed, fresh_ordered instID wf cell seed event, hstart.accounted,
      fresh_awake instID wf cell seed event, rfl⟩ hquiet hrun
  exact quiescent_strandedSteps hgraph hforward hs ha hawake hquiescent

/-! ## A split with a way back

The check decides whether the work is published or implemented again. -/

def reviseSteps (again : String) : List StepConfig :=
  [{ id := "implement" },
   { id := "check", seqDependsOn := ["implement"], memoryWrite := ["verdict"] },
   { id := "route", type := .split, seqDependsOn := ["check"], branches :=
       [{ cond := "memory.verdict == \"redo\"", goto := again },
        { isElse := true, goto := "publish" }] },
   { id := "publish", seqDependsOn := ["route"] },
   { id := "discuss", seqDependsOn := ["route"] }]

def reviseWorkflow (again : String) : WorkflowConfig :=
  { id := "revise", steps := reviseSteps again }

def reviseStart (again : String) : DriveState :=
  { run := initDAG "wf-1" (reviseWorkflow again) {} [] fun _ => none }

/-- The work is implemented, accepted and published. -/
def reviseAccepted : List Event :=
  runsAlone { success := true } 1 ++
    runsAlone { success := true, structuredOutput := [("verdict", .string "ok")] } 5 ++
    runsAlone { success := true } 3

theorem revise_accepted_none_pending :
    ∃ t, exec (step (Expr.engine Expr.textOps 2)) (reviseStart "discuss") reviseAccepted =
        some t ∧ t.quiescent = true ∧ strandedSteps t.run = [] := by
  have hvalid : validateWorkflow "revise" [] (reviseWorkflow "discuss") = [] := by decide
  have hgraph : validateGraph "revise" (reviseWorkflow "discuss") = [] := by decide +kernel
  refine ⟨_, exec_get (by decide +kernel), by decide +kernel, ?_⟩
  exact quiescent_none_pending (Expr.engine Expr.textOps 2) hvalid hgraph (by decide +kernel) "wf-1" {}
    [] (fun _ => none) (by decide +kernel) (exec_get _) (by decide +kernel)

/-- A split that sends the work back makes its first step a target that only the
split can activate, and the split waits for that step: nothing ever starts. -/
theorem revise_goesBack_pending : validateWorkflow "revise" [] (reviseWorkflow "implement") = [] ∧
      validateGraph "revise" (reviseWorkflow "implement") = [] ∧
      (exec (step (Expr.engine Expr.textOps 2)) (reviseStart "implement")
        [.sched 0, .sched 0]).map (fun t => (t.quiescent, strandedSteps t.run)) =
          some (true, ["implement", "check", "route", "publish", "discuss"]) := by
  decide +kernel

end Apiary.Workflow
