import Apiary.Expr.Eval
import Apiary.Workflow.Executions
import Apiary.Workflow.Moves

/-!
# Which branch targets a split lets run

A loop-back makes a split choose again.  The machine here keeps, beside the
scheduler, what the latest evaluation of every split chose, which targets that
evaluation or another decision still in force asks for, and which targets the
scheduler has taken up since.
-/

namespace Apiary.Workflow

open Config Option Function Machine Bool List

variable {s : DriveState} {id split : String} {r' : Routing} {chosen : List String}

def isTarget (wf : WorkflowConfig) (split id : String) : Bool :=
  (byID wf split).branches.any fun b => b.goto ≠ "" && b.goto = id

structure Routing where
  drive : DriveState
  /-- How often a split was evaluated. -/
  evals : String → ℕ := fun _ => 0
  /-- What a split chose, until a loop-back rolls it back. -/
  inForce : String → List String := fun _ => []
  /-- The targets that may run after the latest evaluation of a split. -/
  entitled : String → String → Bool := fun _ _ => false
  /-- The steps taken up since the latest evaluation of a split. -/
  taken : String → String → Bool := fun _ _ => false
  /-- A split and a target of it that was started without being entitled. -/
  strays : List (String × String) := []

/-- Whether another split or the `on_pass.next` of a passed step asks for `id`. -/
def Routing.asked (r : Routing) (split id : String) : Bool :=
  (order r.drive.run.wf).any fun other =>
    (other ≠ split && isTarget r.drive.run.wf other id && id ∈ r.inForce other) ||
      (r.drive.run.state other = some .passed &&
        (byID r.drive.run.wf other).onPass.any fun next => next.next = id)

/-- The splits that were evaluated again and that a started step is a stray of. -/
def Routing.straysOf (r : Routing) : Option String → List (String × String)
  | none => []
  | some id =>
    ((order r.drive.run.wf).filter fun split =>
      isTarget r.drive.run.wf split id && 2 ≤ r.evals split && !r.entitled split id).map
        fun split => (split, id)

/-- The record after an event that led the scheduler to `t`.  A new evaluation of a
split settles anew who may run: what it chose and what somebody else asks for. -/
def Routing.after (e : Engine) (r : Routing) (ev : Event) (t : DriveState) : Routing :=
  let strays := r.straysOf (startedBy r.drive t ev) ++ r.strays
  match routedBy e r.drive ev with
  | none =>
    { r with
      drive := t
      inForce := fun split =>
        if split ∈ rolledBackBy r.drive ev then [] else r.inForce split
      entitled := fun split id => r.entitled split id ||
        (passedBy e r.drive ev).any fun step => step.onPass.any fun next => next.next = id
      taken := fun split id => r.taken split id || takenBy e r.drive ev = some id
      strays := strays }
  | some (split, chosen) =>
    { drive := t
      evals := update r.evals split (r.evals split + 1)
      inForce := update r.inForce split chosen
      entitled := fun other id =>
        decide (id ∈ chosen) || if other = split then r.asked split id else r.entitled other id
      taken := fun other id => other ≠ split && (r.taken other id || id = split)
      strays := strays }

def Routing.step (e : Engine) (r : Routing) (ev : Event) : Option Routing :=
  (Workflow.step e r.drive ev).map (r.after e ev)

/-- The condition on a split that is evaluated again: every target that is still
activated is chosen or asked for by somebody else, and every chosen target is
pending. -/
def choosesAfresh (e : Engine) (r : Routing) (ev : Event) : Bool :=
  match routedBy e r.drive ev with
  | none => true
  | some (split, chosen) =>
    r.evals split = 0 || (byID r.drive.run.wf split).branches.all fun b =>
      b.goto = "" ||
        ((!r.drive.run.activated b.goto || b.goto ∈ chosen || r.asked split b.goto) &&
          (b.goto ∉ chosen || (r.drive.run.state b.goto = some .pending && b.goto ≠ split)))

/-! ## The invariant -/

/-- The scheduler's own invariants that routing rests on. -/
structure Schedules (s : DriveState) : Prop where
  nodup : (order s.run.wf).Nodup
  wellFormed : WellFormed s
  ordered : Ordered s
  poised : Poised s

theorem Schedules.step {e : Engine} {t : DriveState} (hs : Schedules s) {ev : Event}
    (hstep : Workflow.step e s ev = some t) : Schedules t where
  nodup := (step_wf hstep).symm ▸ hs.nodup
  wellFormed := hs.wellFormed.step hstep
  ordered := hs.ordered.step hs.wellFormed hs.nodup hstep
  poised := hs.poised.step hs.wellFormed hs.ordered
    (hs.ordered.step hs.wellFormed hs.nodup hstep) hstep

/-- A target that a split asks for is served: the scheduler has taken it up since, it
waits for its turn, or a dependency keeps it from running. -/
def Served (r : Routing) (split id : String) : Prop :=
  r.taken split id = true ∨
    (r.drive.run.state id = some .pending ∧ r.drive.run.activated id = true) ∨
    blocked r.drive.run.wf r.drive.run.state id = true

structure Routed (r : Routing) : Prop where
  drive : Schedules r.drive
  entitled : ∀ split id, 2 ≤ r.evals split → isTarget r.drive.run.wf split id = true →
    r.drive.run.activated id = true → r.entitled split id = true
  chosen : ∀ split id, id ∈ r.inForce split → isTarget r.drive.run.wf split id = true →
    r.drive.run.activated id = true
  served : ∀ split id, 2 ≤ r.evals split → id ∈ r.inForce split →
    isTarget r.drive.run.wf split id = true → Served r split id
  strays : r.strays = []

section Steps

variable {e : Engine} {r : Routing} {t : DriveState} {ev : Event}

theorem startedBy_active (ho : Ordered s) (hstarted : startedBy s t ev = some id) :
    s.run.activated id = true := by
  rw [startedBy.eq_def] at hstarted
  split at hstarted
  · split at hstarted
    · rename_i hphase
      obtain ⟨-, ⟨⟩⟩ := ite_none_right_eq_some.mp hstarted
      exact ((ho.picked _ hphase).2 _ mem_cons_self).activated
    · cases hstarted
  · cases hstarted

theorem Routed.no_strays (hr : Routed r) : r.straysOf (startedBy r.drive t ev) = [] := by
  cases hstarted : startedBy r.drive t ev with
  | none => rfl
  | some id =>
    have hactive := startedBy_active hr.drive.ordered hstarted
    rw [Routing.straysOf, map_eq_nil_iff, filter_eq_nil_iff]
    intro split _ hstray
    simp only [and_eq_true, decide_eq_true_eq, not_eq_true'] at hstray
    rw [hr.entitled split id hstray.1.2 hstray.1.1 hactive] at hstray
    cases hstray.2

/-- Serving a target outlasts every event. -/
theorem Served.step (hr : Schedules r.drive) (hstep : Workflow.step e r.drive ev = some r'.drive)
    (hactive : r.drive.run.activated id = true) (hactive' : r'.drive.run.activated id = true)
    (htaken : r.taken split id = true ∨ takenBy e r.drive ev = some id → r'.taken split id = true)
    (hserved : Served r split id) : Served r' split id := by
  have hmoves := step_moves hr.ordered hstep
  have hwf := step_wf hstep
  rw [Served, hwf]
  rcases hserved with hold | ⟨hpending, -⟩ | hblocked
  · exact .inl (htaken (.inl hold))
  · rcases hmoves.leaves_pending hr.wellFormed hactive hpending with hnow | hstill | hnew
    · exact .inl (htaken (.inr hnow))
    · exact .inr (.inl ⟨hstill, hactive'⟩)
    · exact .inr (.inr hnew)
  · rcases hmoves.stays_blocked hr.poised hr.wellFormed hblocked with hstill | hpending
    · exact .inr (.inr hstill)
    · exact .inr (.inl ⟨hpending, hactive'⟩)

theorem Routed.unrouted (hr : Routed r) (hstep : Workflow.step e r.drive ev = some t)
    (hrouted : routedBy e r.drive ev = none) : Routed (r.after e ev t) := by
  have hwf := step_wf hstep
  have hmoves := step_moves hr.drive.ordered hstep
  have hdrive : (r.after e ev t).drive = t := by
    rw [Routing.after, hrouted]
  have hevals : (r.after e ev t).evals = r.evals := by
    rw [Routing.after, hrouted]
  have hforce : ∀ split id, id ∈ (r.after e ev t).inForce split → id ∈ r.inForce split := by
    intro split id hid
    rw [Routing.after, hrouted] at hid
    dsimp only at hid
    split at hid
    · cases hid
    · exact hid
  have hentitled : ∀ split id, (r.after e ev t).entitled split id =
      (r.entitled split id || (passedBy e r.drive ev).any fun step =>
        step.onPass.any fun next => next.next = id) := by
    intro split id
    rw [Routing.after, hrouted]
  have htaken : ∀ split id, r.taken split id = true ∨ takenBy e r.drive ev = some id →
      (r.after e ev t).taken split id = true := by
    intro split id h
    rw [Routing.after, hrouted]
    simpa using h
  have hstrays : (r.after e ev t).strays = [] := by
    rw [Routing.after, hrouted]
    exact append_eq_nil_iff.mpr ⟨hr.no_strays, hr.strays⟩
  refine ⟨by rw [hdrive]; exact hr.drive.step hstep, ?_, ?_, ?_, hstrays⟩
  · intro split id htwice htarget hactive
    rw [hdrive] at htarget hactive
    rw [hevals] at htwice
    rw [hentitled, or_eq_true]
    rcases hmoves.new_activated hactive with hold | ⟨other, chosen, hnew, -⟩ | ⟨step, hpassed, hnext⟩
    · exact .inl (hr.entitled split id htwice (hwf ▸ htarget) hold)
    · rw [hrouted] at hnew
      cases hnew
    · refine .inr ?_
      rw [hpassed]
      exact hnext
  · intro split id hid htarget
    rw [hdrive] at htarget ⊢
    exact hmoves.activated_mono (hr.chosen split id (hforce split id hid) (hwf ▸ htarget))
  · intro split id htwice hid htarget
    rw [hdrive] at htarget
    rw [hevals] at htwice
    have hactive := hr.chosen split id (hforce split id hid) (hwf ▸ htarget)
    refine Served.step hr.drive (by rw [hdrive]; exact hstep) hactive ?_ (htaken split id) ?_
    · rw [hdrive]
      exact hmoves.activated_mono hactive
    · exact hr.served split id htwice (hforce split id hid) (hwf ▸ htarget)

theorem choosesAfresh_branch (hrouted : routedBy e r.drive ev = some (split, chosen))
    (hagain : r.evals split ≠ 0) (hfresh : choosesAfresh e r ev = true)
    (htarget : isTarget r.drive.run.wf split id = true) :
    (r.drive.run.activated id = true → id ∈ chosen ∨ r.asked split id = true) ∧
      (id ∈ chosen → r.drive.run.state id = some .pending ∧ id ≠ split) := by
  obtain ⟨b, hb, hgoto⟩ := List.any_eq_true.mp htarget
  simp only [Bool.and_eq_true, decide_eq_true_eq] at hgoto
  obtain ⟨hsome, rfl⟩ := hgoto
  rw [choosesAfresh, hrouted] at hfresh
  simp only [hagain, decide_false, Bool.false_or, List.all_eq_true] at hfresh
  have hbranch := hfresh b hb
  simp only [hsome, decide_false, Bool.false_or, Bool.and_eq_true, Bool.or_eq_true,
    not_eq_true', decide_eq_true_eq] at hbranch
  grind

theorem routedBy_cases (hrouted : routedBy e s ev = some (split, chosen))
    (hstep : Workflow.step e s ev = some t) :
    (∃ ids, s.phase = .dispatch (split :: ids)) ∧
      t.run = s.run.routeSplit (byID s.run.wf split) chosen ∧
      takenBy e s ev = some split ∧ passedBy e s ev = none := by
  rw [routedBy.eq_def] at hrouted
  split at hrouted
  · split at hrouted
    · rename_i ids hphase
      obtain ⟨chosen, hchosen, heq⟩ := map_eq_some_iff.mp hrouted
      cases heq
      have ht := schedStep_dispatch hphase hstep
      cases dispatchStep_turned e s split with
      | routed chosen' hchosen' hout =>
        rw [hchosen, some.injEq] at hchosen'
        subst hchosen'
        refine ⟨⟨ids, hphase⟩, ?_, ?_, ?_⟩
        · rw [ht, hout]
        · simp [takenBy, hphase, hout]
        · simp [passedBy, hphase]
      | full hnone | moved hnone =>
        rw [hchosen] at hnone
        cases hnone
    · cases hrouted
  · cases hrouted

theorem Routed.routed (hr : Routed r) (hstep : Workflow.step e r.drive ev = some t)
    (hrouted : routedBy e r.drive ev = some (split, chosen)) (hfresh : choosesAfresh e r ev = true) :
    Routed (r.after e ev t) := by
  have hwf := step_wf hstep
  have hmoves := step_moves hr.drive.ordered hstep
  obtain ⟨⟨ids, hphase⟩, hrun, htaken, hpassed⟩ := routedBy_cases hrouted hstep
  obtain ⟨hcascades, hactivated⟩ :=
    routeSplit_cascades r.drive.run (byID r.drive.run.wf split) chosen
  rw [← hrun] at hcascades hactivated
  rw [byID_id (hr.drive.wellFormed.picked _ hphase mem_cons_self)] at hcascades
  have hactive : ∀ id, id ∈ chosen → isTarget r.drive.run.wf split id = true →
      activatedBy r.drive.run (byID r.drive.run.wf split) chosen id = true := by
    intro id hid htarget
    obtain ⟨b, hb, hgoto⟩ := any_eq_true.mp htarget
    rw [activatedBy, or_eq_true]
    refine .inr (any_eq_true.mpr ⟨b, hb, ?_⟩)
    simp only [and_eq_true, decide_eq_true_eq] at hgoto ⊢
    exact ⟨hgoto, hgoto.2.symm ▸ hid⟩
  rw [Routing.after, hrouted]
  refine ⟨hr.drive.step hstep, ?_, ?_, ?_, ?_⟩
  · intro other id htwice htarget hnow
    dsimp only at htwice htarget hnow ⊢
    rw [hwf] at htarget
    rw [or_eq_true, decide_eq_true_eq]
    rcases hmoves.new_activated hnow with hold | ⟨split', chosen', hnew, hid⟩ | ⟨step, hnew, -⟩
    · by_cases hother : other = split
      · subst hother
        rw [update_self] at htwice
        rw [if_pos rfl]
        exact (choosesAfresh_branch hrouted (by omega) hfresh htarget).1 hold
      · rw [update_of_ne hother] at htwice
        rw [if_neg hother]
        exact .inr (hr.entitled other id htwice htarget hold)
    · rw [hrouted] at hnew
      cases hnew
      exact .inl hid
    · rw [hpassed] at hnew
      cases hnew
  · intro other id hid htarget
    dsimp only at hid htarget ⊢
    rw [hwf] at htarget
    by_cases hother : other = split
    · subst hother
      rw [update_self] at hid
      rw [hactivated]
      exact hactive id hid htarget
    · rw [update_of_ne hother] at hid
      exact hmoves.activated_mono (hr.chosen other id hid htarget)
  · intro other id htwice hid htarget
    dsimp only at htwice hid htarget
    rw [hwf] at htarget
    by_cases hother : other = split
    · subst hother
      rw [update_self] at htwice hid
      obtain ⟨hpending, hne⟩ := (choosesAfresh_branch hrouted (by omega) hfresh htarget).2 hid
      refine .inr ?_
      rcases hcascades.caused id with hsame | ⟨-, hinactive⟩ | hblocked
      · refine .inl ⟨hsame.trans ((update_of_ne hne _ _).trans hpending), ?_⟩
        change t.run.activated id = true
        rw [hactivated]
        exact hactive id hid htarget
      · rw [hactive id hid htarget] at hinactive
        cases hinactive
      · refine .inr ?_
        change blocked t.run.wf t.run.state id = true
        rw [hwf]
        exact hblocked
    · rw [update_of_ne hother] at htwice hid
      have hold := hr.chosen other id hid htarget
      refine Served.step hr.drive hstep hold (hmoves.activated_mono hold) ?_
        (hr.served other id htwice hid htarget)
      rw [htaken]
      intro h
      rw [and_eq_true, or_eq_true, decide_eq_true_eq, decide_eq_true_eq]
      exact ⟨hother, h.imp_right fun hsame => (some.inj hsame).symm⟩
  · exact append_eq_nil_iff.mpr ⟨hr.no_strays, hr.strays⟩

theorem Routed.step (hr : Routed r) (hfresh : choosesAfresh e r ev = true)
    (hstep : Routing.step e r ev = some r') : Routed r' := by
  obtain ⟨t, ht, rfl⟩ := map_eq_some_iff.mp hstep
  cases hrouted : routedBy e r.drive ev with
  | none => exact hr.unrouted ht hrouted
  | some => exact hr.routed ht hrouted hfresh

end Steps

/-! ## Runs -/

theorem fresh_routed {ctx : String} {requireFor : List String} {wf : WorkflowConfig}
    (hvalid : validateWorkflow ctx requireFor wf = []) (instID : String) (cell : SourceItem)
    (seed : List MemoryStep) (event : String → Option String) :
    Routed { drive := { run := initDAG instID wf cell seed event } } where
  drive :=
    { nodup := validateWorkflow_nodup hvalid
      wellFormed := (Initial.fresh instID wf cell seed event).started.wellFormed
      ordered := fresh_ordered instID wf cell seed event
      poised := by
        intro ids hphase
        cases hphase }
  entitled _ _ htwice := nomatch htwice
  chosen _ _ hid := absurd hid not_mem_nil
  served _ _ htwice := nomatch htwice
  strays := rfl

theorem routing_wf {e : Engine} {r : Routing} {ev : Event} (hstep : Routing.step e r ev = some r') :
    r'.drive.run.wf = r.drive.run.wf := by
  obtain ⟨t, ht, rfl⟩ := map_eq_some_iff.mp hstep
  have hwf := step_wf ht
  rw [Routing.after]
  split <;> exact hwf

/-- In every run of a valid workflow in which each repeated evaluation of a split finds
no activated target that nobody asks for, and its chosen targets pending: no branch
target of a split that was evaluated again is started unless the latest evaluation, or
another decision in force, asks for it, and every target that the latest evaluation
chose is taken up, waits for its turn or has a dependency that ended without passing. -/
theorem split_targets_follow_latest (e : Engine) {ctx : String} {requireFor : List String}
    {wf : WorkflowConfig} (hvalid : validateWorkflow ctx requireFor wf = []) (instID : String)
    (cell : SourceItem) (seed : List MemoryStep) (event : String → Option String)
    {es : List Event} {r : Routing}
    (hguard : Machine.Guarded (Routing.step e) (fun r ev => choosesAfresh e r ev = true)
      { drive := { run := initDAG instID wf cell seed event } } es)
    (hrun : exec (Routing.step e)
      { drive := { run := initDAG instID wf cell seed event } } es = some r) :
    r.strays = [] ∧ ∀ split id, 2 ≤ r.evals split → isTarget wf split id = true →
      id ∈ r.inForce split → Served r split id := by
  have hkept : ∀ r ev r', (Routed r ∧ r.drive.run.wf = wf) → choosesAfresh e r ev = true →
      Routing.step e r ev = some r' → Routed r' ∧ r'.drive.run.wf = wf := by
    rintro r ev r' ⟨hr, hwf⟩ hfresh hstep
    exact ⟨hr.step hfresh hstep, (routing_wf hstep).trans hwf⟩
  obtain ⟨hr, hwf⟩ := exec_invariant hkept
    ⟨fresh_routed hvalid instID cell seed event, rfl⟩ hguard hrun
  exact ⟨hr.strays, fun split id htwice htarget hid => hr.served split id htwice hid (hwf ▸ htarget)⟩

/-! ## A triage loop

A cell is classified and routed to the docs or to the code track; a failure of the
docs track starts over with a new classification. -/

def triageWorkflow : WorkflowConfig where
  id := "triage"
  steps :=
    [{ id := "classify", memoryWrite := ["track"] },
     { id := "route", type := .split, seqDependsOn := ["classify"],
       branches :=
         [{ cond := "memory.track == \"docs\"", goto := "write_docs" },
          { isElse := true, goto := "implement" }] },
     { id := "write_docs", seqDependsOn := ["route"],
       onFail := some { goto := "classify", maxRetries := 2 } },
     { id := "implement", seqDependsOn := ["route"] }]

def triageStart : Routing :=
  { drive := { run := initDAG "wf-1" triageWorkflow {} [] fun _ => none } }

/-- The cell is classified as docs, the docs fail, and the cell is classified again;
the steps chosen then are started. -/
def triageLaps (track : String) : List Event :=
  runsAlone { success := true, structuredOutput := [("track", .string "docs")] } 5 ++
    runsAlone { output := "broken links" } 3 ++
    runsAlone { success := true, structuredOutput := [("track", .string track)] } 5 ++
    replicate 4 (.sched 0)

theorem triage_docsAgain_served :
    ∃ r, exec (Routing.step (Expr.engine Expr.textOps 2)) triageStart
        (triageLaps "docs") = some r ∧
      r.evals "route" = 2 ∧ r.strays = [] ∧ Served r "route" "write_docs" := by
  have hvalid : validateWorkflow "triage" [] triageWorkflow = [] := by decide
  have hrun := exec_get (by decide +kernel : (exec (Routing.step (Expr.engine Expr.textOps 2))
    triageStart (triageLaps "docs")).isSome = true)
  have hresult := split_targets_follow_latest (Expr.engine Expr.textOps 2) hvalid "wf-1" {} []
    (fun _ => none) (by decide +kernel) hrun
  exact ⟨_, hrun, by decide +kernel, hresult.1,
    hresult.2 "route" "write_docs" (by decide +kernel) (by decide) (by decide +kernel)⟩

/-- The second classification chooses the code track, and the docs are written all
the same: their activation by the first lap was never taken back. -/
theorem triage_docsThenCode_strays :
    (exec (Routing.step (Expr.engine Expr.textOps 2)) triageStart
      (triageLaps "code")).map (fun r => (r.evals "route", r.inForce "route", r.strays)) =
        some (2, ["implement"], [("route", "write_docs")]) := by
  decide +kernel

end Apiary.Workflow
