import Apiary.Workflow.Invariants
import Mathlib.Algebra.BigOperators.Fin
import Mathlib.Algebra.Order.BigOperators.Group.Finset

/-!
# Retry budgets and loop-backs

A failure loops back along the edge of its kind, `on_conflict` or `on_fail`, and
each edge has its own counter.  The requested loop-back itself is kept in a
single slot of the loop until everything in flight has drained.  The inversion
lemma of this module says what one step does to the counters, the slot, the
carried out resets and the pending steps; the bounds on a whole run follow from
it.
-/

namespace Apiary.Workflow

open Config List Function DriveState DagRun

variable {s : DriveState} {target id : String} {edge : Option StepOutcome} {out : DriveState × Bool}
  {now index : ℕ} {w : Worker} {act : WorkerAct} {ev : Event}

/-! ## Edges and counters -/

/-- The kind of a failure and the step that failed; the kind is `true` for a
conflict that has an edge of its own. -/
abbrev EdgeKey := Bool × String

def retryEdge (conflict : Bool) (step : StepConfig) : Option StepOutcome :=
  if conflict then step.onConflict else step.onFail

/-- The retries already taken along an edge. -/
def DagRun.used (r : DagRun) : EdgeKey → ℕ
  | (true, id) => r.conflictRetries id
  | (false, id) => r.retries id

def failureKind (step : StepConfig) (res : StepResult) : Bool :=
  res.conflict && governs step.onConflict

def edgeBudget (edge : Option StepOutcome) : ℕ := edge.elim 0 StepOutcome.maxRetries

/-- The sum of all retry budgets of a workflow. -/
def retryBudget (wf : WorkflowConfig) : ℕ :=
  (wf.steps.map fun s => edgeBudget s.onFail + edgeBudget s.onConflict).sum

/-- No route for this kind of failure, or its budget is used up. -/
def Exhausted (r : DagRun) (key : EdgeKey) : Prop :=
  ∀ o, retryEdge key.1 (byID r.wf key.2) = some o → o.goto = "" ∨ o.maxRetries ≤ r.used key

theorem failureTarget_eq (hfail : s.termFail = false) (hloop : s.loopTarget = "")
    (step : StepConfig) (res : StepResult) :
    failureTarget s step res = loopEdge (retryEdge (failureKind step res) step)
        (s.run.used (failureKind step res, step.id)) := by
  cases hkind : res.conflict && governs step.onConflict <;>
    simp [failureTarget, failureKind, retryEdge, used, hfail, hloop, hkind]

theorem failureTarget_eq_some {step : StepConfig} {res : StepResult}
    (htarget : failureTarget s step res = some target) :
    s.termFail = false ∧ s.loopTarget = "" := by
  obtain ⟨hflags, htarget⟩ := Option.ite_none_left_eq_some.mp htarget
  simpa using hflags

/-- An edge is taken back only to a named step and within its budget. -/
theorem loopEdge_eq_some {used : ℕ} (hedge : loopEdge edge used = some target) :
    target ≠ "" ∧ used < edgeBudget edge := by
  cases edge with
  | none => cases hedge
  | some =>
    simp only [loopEdge, Option.ite_none_right_eq_some, Option.some.injEq, Bool.and_eq_true,
      decide_eq_true_eq] at hedge
    exact ⟨hedge.2 ▸ hedge.1.1, hedge.1.2⟩

/-- An edge that is not taken has no target or has spent its budget. -/
theorem loopEdge_eq_none {used : ℕ} (hedge : loopEdge edge used = none) :
    ∀ o, edge = some o → o.goto = "" ∨ o.maxRetries ≤ used := by
  rintro o rfl
  simp only [loopEdge, ite_eq_right_iff, reduceCtorEq, imp_false, Bool.and_eq_true,
    decide_eq_true_eq, not_and, not_lt] at hedge
  exact or_iff_not_imp_left.mpr hedge

/-- A retry spends one unit of the counter of its edge and of no other. -/
theorem retryStep_used (r : DagRun) (wr : WorkerResult) (res : StepResult) :
    (r.retryStep wr res).used = update r.used (failureKind wr.step res, wr.step.id)
        (r.used (failureKind wr.step res, wr.step.id) + 1) := by
  funext key
  rw [retryStep]
  cases hkind : res.conflict && governs wr.step.onConflict <;> rcases key with ⟨_ | _, id⟩ <;>
    by_cases hid : id = wr.step.id <;>
    simp [used, setState, failureKind, hkind, hid]

theorem closeWindow_used (r : DagRun) (step : StepConfig) : (r.closeWindow step).used = r.used := by
  obtain ⟨_, _, _, heq⟩ := closeWindow_eq r step
  rw [heq]
  rfl

/-! ## One step -/

/-- The loop resets carried out so far. -/
def resetCount (history : List Mark) : ℕ :=
  history.countP fun m => match m with
    | .reset _ => true
    | _ => false

/-- What one step does to the counters, the loop-back slot, the resets carried
out and the pending steps. -/
inductive Looped (s t : DriveState) : Event → Prop where
  | kept (ev : Event) (hused : t.run.used = s.run.used)
      (hloop : t.loopTarget = s.loopTarget ∨ t.loopTarget = "")
      (hresets : resetCount t.history = resetCount s.history)
      (hstate : ChangesTo (fun st => st ≠ .pending) s.run.state t.run.state) : Looped s t ev
  | retried (now : ℕ) (wr : WorkerResult) (kind : Bool) (hphase : s.phase = .recv)
      (hmem : wr ∈ s.resultCh) (hfree : s.loopTarget = "")
      (hbudget : s.run.used (kind, wr.step.id) < edgeBudget (retryEdge kind wr.step))
      (hused : t.run.used = update s.run.used (kind, wr.step.id)
        (s.run.used (kind, wr.step.id) + 1))
      (hresets : resetCount t.history = resetCount s.history) : Looped s t (.sched now)
  | reset (now : ℕ) (hphase : s.phase = .check) (hloop : s.loopTarget ≠ "") (hclear : t.loopTarget = "")
      (hresets : resetCount t.history = resetCount s.history + 1)
      (hused : t.run.used = s.run.used) : Looped s t (.sched now)
  | woken (htop : t.phase = .top) (hused : t.run.used = s.run.used) (hloop : t.loopTarget = s.loopTarget)
      (hresets : resetCount t.history = resetCount s.history)
      (hstate : t.run.state = update s.run.state s.run.waitingStep (some .pending)) :
      Looped s t .wake

section Steps

variable {e : Engine} {s t : DriveState}

theorem Dispatched.looped {ids : List String} {step : StepConfig} (hout : Dispatched s step id out) :
    Looped s { out.1 with phase := if out.2 then .check else .dispatch ids } (.sched now) := by
  obtain ⟨⟨_, _, _, hrun⟩, -, hloop⟩ := hout.frame
  refine .kept _ (by simp only [hrun]; rfl) (.inl hloop) ?_ (hout.changes.mono fun _ h => h.1)
  cases hout <;> rfl

theorem Quiesced.looped (hphase : s.phase = .check) (hquiesced : Quiesced s t) :
    Looped s t (.sched now) := by
  cases hquiesced with
  | reset hstopped hfail hloop =>
    refine .reset now hphase hloop rfl ?_ rfl
    simp [resetCount]
  | skipped =>
    exact .kept _ rfl (.inl rfl) rfl ((skipUnreachable_skips s.run).changes.mono (by simp))
  | _ => exact .kept _ rfl (.inl rfl) rfl (ChangesTo.refl _)

theorem recorded_passStep_changes (e : Engine) (s : DriveState) (wr : WorkerResult)
    (rest : List WorkerResult) : ChangesTo (fun st => st = .passed) s.run.state
      ((recorded e (s.take rest) wr).run.passStep wr (gated e (s.take rest) wr).1).state := by
  have hset : ((recorded e (s.take rest) wr).run.passStep wr (gated e (s.take rest) wr).1).state =
      update s.run.state wr.step.id (some .passed) := by
    simp [passStep, setState, recorded, recordState, DriveState.take]
  exact hset ▸ ChangesTo.update _ _ rfl

/-- Applying a result is where a retry is decided and paid for. -/
theorem Applied.looped {wr : WorkerResult} {rest : List WorkerResult} (hphase : s.phase = .recv)
    (hresult : s.resultCh = wr :: rest) (happlied : Applied e (s.take rest) wr t) :
    Looped s t (.sched now) := by
  have hclosed : (recorded e (s.take rest) wr).run.used = s.run.used := closeWindow_used _ _
  cases happlied with
  | passed =>
    exact .kept _ hclosed (.inl rfl) rfl
      ((recorded_passStep_changes e s wr rest).mono (by simp))
  | retried target hsuccess htarget =>
    obtain ⟨hfail, hloop⟩ := failureTarget_eq_some htarget
    rw [failureTarget_eq hfail hloop] at htarget
    have hbudget := (loopEdge_eq_some htarget).2
    rw [hclosed] at hbudget
    refine .retried now wr _ hphase (hresult ▸ mem_cons_self) hloop hbudget ?_ rfl
    rw [retryStep_used, hclosed]
  | failed =>
    refine .kept _ hclosed (.inr rfl) rfl ?_
    have hset : ((recorded e (s.take rest) wr).run.setState wr.step.id .failed).state =
        update s.run.state wr.step.id (some .failed) := by
      simp [setState, recorded, recordState, DriveState.take]
    exact hset ▸ ChangesTo.update _ _ (by decide)

/-- One step of the scheduler, seen by the counters of the retries. -/
theorem SchedStepped.looped (hstep : SchedStepped e now s t) : Looped s t (.sched now) := by
  cases hstep with
  | dispatch id ids hphase out hout => exact hout.looped
  | quiesce hphase hnone t hquiesced => exact hquiesced.looped hphase
  | receive wr rest hphase hresult t hreceived =>
    cases hreceived with
    | applied hstopped hparks t happlied => exact happlied.looped hphase hresult
    | _ => exact .kept _ rfl (.inl rfl) rfl (ChangesTo.refl _)
  | park wr =>
    obtain ⟨_, _, _, hpark⟩ := enterPark_eq s.run now wr
    rw [DriveState.park, hpark]
    exact .kept _ rfl (.inr rfl) rfl (ChangesTo.update _ _ (by decide))
  | _ => exact .kept _ rfl (.inl rfl) rfl (ChangesTo.refl _)

theorem workerStepped_resetCount (hstep : WorkerStepped e s index w act t) :
    resetCount t.history = resetCount s.history := by
  cases hstep with
  | start =>
    rw [setUnit, startUnit]
    split
    · rfl
    · simp [resetCount]
  | finish unit u row res =>
    obtain ⟨rows, heq⟩ := finishUnit_eq s w u row res
    rw [setUnit, heq]
  | _ => rfl

/-- The inversion lemma of the counters. -/
theorem step_looped (hstep : Workflow.step e s ev = some t) : Looped s t ev := by
  cases step_cases hstep with
  | sched now t hsched => exact hsched.looped
  | worker index act w hw t hworker =>
    have hresets := workerStepped_resetCount hworker
    obtain ⟨_, _, _, _, _, rfl⟩ := workerStepped_eq hworker
    exact .kept _ rfl (.inl rfl) hresets (ChangesTo.refl _)
  | cancel | stop => exact .kept _ rfl (.inl rfl) rfl (ChangesTo.refl _)
  | resolve approve =>
    cases approve with
    | true => exact .kept _ rfl (.inl rfl) (by simp [resetCount]) (ChangesTo.update _ _ (by decide))
    | false => exact .kept _ rfl (.inl rfl) rfl (ChangesTo.update _ _ (by decide))
  | wake => exact .woken rfl rfl rfl rfl rfl

/-! ## Steps in flight are the indexed ones -/

/-- The steps whose result the loop has not taken yet. -/
def DriveState.flying (s : DriveState) : List StepConfig :=
  s.workers.map Worker.step ++ s.resultCh.map WorkerResult.step

theorem Dispatched.flying (hout : Dispatched s (byID s.run.wf id) id out) :
    ∀ c ∈ out.1.flying, c ∈ s.flying ∨ c = byID s.run.wf id := by
  intro c hc
  cases hout with
  | errored =>
    simp only [flying, push, map_append, mem_append,
      map_singleton, mem_singleton] at hc ⊢
    grind
  | asked =>
    simp only [flying, push, began, map_append,
      mem_append, map_singleton, mem_singleton] at hc ⊢
    grind
  | spawned =>
    simp only [flying, spawn, began, map_append,
      mem_append, map_singleton, mem_singleton, launch_step] at hc ⊢
    grind
  | _ => exact .inl hc

/-- The scheduler puts only steps of the workflow in flight. -/
theorem SchedStepped.flying (hstep : SchedStepped e now s t) (hs : WellFormed s) :
    ∀ c ∈ t.flying, c ∈ s.flying ∨ ∃ id ∈ order s.run.wf, c = byID s.run.wf id := by
  have htake : ∀ (wr : WorkerResult) (rest : List WorkerResult), s.resultCh = wr :: rest →
      ∀ c ∈ (s.take rest).flying, c ∈ s.flying := by
    intro wr rest hresult c hc
    simp only [DriveState.flying, DriveState.take, hresult, map_cons, mem_append, mem_cons] at hc ⊢
    grind
  intro c hc
  cases hstep with
  | dispatch id ids hphase out hout =>
    have hid : id ∈ order s.run.wf := hs.picked _ hphase mem_cons_self
    exact (hout.flying c hc).imp_right fun hnew => ⟨id, hid, hnew⟩
  | quiesce hphase hnone t hquiesced =>
    left
    cases hquiesced <;> exact hc
  | receive wr rest hphase hresult t hreceived =>
    left
    cases hreceived with
    | applied hstopped hparks t happlied =>
      obtain ⟨_, _, _, rfl⟩ := happlied.eq
      exact htake wr rest hresult c hc
    | _ => exact htake wr rest hresult c hc
  | discard wr dropped rest hphase hsome hresult => exact .inl (htake dropped rest hresult c hc)
  | _ => exact .inl hc

theorem workerStepped_flying (hw : s.workers[index]? = some w)
    (hstep : WorkerStepped e s index w act t) : ∀ c ∈ t.flying, c ∈ s.flying := by
  obtain ⟨hworkers, hresults⟩ := workerStepped_steps hstep hw
  intro c hc
  rw [flying, mem_append, mem_map, mem_map] at hc
  rcases hc with ⟨w', hw', rfl⟩ | ⟨wr, hwr, rfl⟩
  · obtain ⟨w'', hmem, heq⟩ := hworkers w' hw'
    exact heq ▸ mem_append_left _ (mem_map_of_mem hmem)
  · rcases hresults wr hwr with hold | heq
    · exact mem_append_right _ (mem_map_of_mem hold)
    · exact heq ▸ mem_append_left _ (mem_map_of_mem (mem_of_getElem? hw))

/-- Every step in flight is the one its id stands for. -/
def Indexed (s : DriveState) : Prop := ∀ c ∈ s.flying, c = byID s.run.wf c.id

theorem Indexed.step (hi : Indexed s) (hs : WellFormed s) (hstep : Workflow.step e s ev = some t) :
    Indexed t := by
  intro c hc
  rw [step_wf hstep]
  have horigin : c ∈ s.flying ∨ ∃ id ∈ order s.run.wf, c = byID s.run.wf id := by
    cases step_cases hstep with
    | sched now t hsched => exact hsched.flying hs c hc
    | worker index act w hw t hworker => exact .inl (workerStepped_flying hw hworker c hc)
    | _ => exact .inl hc
  rcases horigin with hold | ⟨id, hid, rfl⟩
  · exact hi c hold
  · rw [byID_id hid]

theorem Started.indexed (hstarted : Started s) : Indexed s := by
  cases hstarted <;> exact fun c hc => absurd hc not_mem_nil

/-! ## Budgets bound loop-backs -/

/-- The retries taken so far, over all steps and both kinds. -/
def DagRun.retried (r : DagRun) : ℕ := ∑ key ∈ Finset.univ ×ˢ (order r.wf).toFinset, r.used key

/-- Every counter stays within its budget, and a retry was taken for each reset
and for the loop-back that still waits. -/
structure Budgeted (s : DriveState) : Prop where
  within : ∀ key, s.run.used key ≤ edgeBudget (retryEdge key.1 (byID s.run.wf key.2))
  resets : resetCount s.history + (if s.loopTarget = "" then 0 else 1) ≤ s.run.retried

/-- The total of the counters grows by one with the counter of one edge. -/
theorem retried_update {r r' : DagRun} (hwf : r'.wf = r.wf) {key : EdgeKey}
    (hkey : key.2 ∈ order r.wf)
    (hused : r'.used = update r.used key (r.used key + 1)) :
    r'.retried = r.retried + 1 := by
  have hmem : key ∈ Finset.univ ×ˢ (order r.wf).toFinset := by simp [hkey]
  rw [retried, retried, hwf, hused, Finset.sum_update_of_mem hmem,
    ← Finset.sum_erase_add _ _ hmem, Finset.sdiff_singleton_eq_erase]
  omega

theorem retried_congr {r r' : DagRun} (hwf : r'.wf = r.wf) (hused : r'.used = r.used) :
    r'.retried = r.retried := by
  rw [retried, retried, hwf, hused]

/-- No step of a run takes a counter over the budget of its edge. -/
theorem Budgeted.step (hb : Budgeted s) (hs : WellFormed s) (hi : Indexed s)
    (hstep : Workflow.step e s ev = some t) : Budgeted t := by
  have hwf := step_wf hstep
  have hold := hb.resets
  cases step_looped hstep with
  | kept _ hused hloop hresets =>
    refine ⟨by rw [hused, hwf]; exact hb.within, ?_⟩
    rw [hresets, retried_congr hwf hused]
    rcases hloop with hloop | hloop
    · rw [hloop]
      exact hold
    · rw [if_pos hloop]
      omega
  | retried now wr kind hphase hmem hfree hbudget hused hresets =>
    have hself := hi wr.step (mem_append_right _ (mem_map_of_mem hmem))
    have hid : wr.step.id ∈ order s.run.wf := mem_map_of_mem (hs.results wr hmem)
    refine ⟨?_, ?_⟩
    · intro key
      rw [hwf, hused]
      by_cases hkey : key = (kind, wr.step.id)
      · subst hkey
        rw [Function.update_self, ← hself]
        exact hbudget
      · rw [Function.update_of_ne hkey]
        exact hb.within key
    · rw [if_pos hfree] at hold
      rw [hresets, retried_update hwf hid hused]
      split <;> omega
  | reset now hphase hloop hclear hresets hused =>
    refine ⟨by rw [hused, hwf]; exact hb.within, ?_⟩
    rw [if_neg hloop] at hold
    rw [if_pos hclear, hresets, retried_congr hwf hused]
    exact hold
  | woken htop hused hloop hresets =>
    refine ⟨by rw [hused, hwf]; exact hb.within, ?_⟩
    rw [hresets, hloop, retried_congr hwf hused]
    exact hold

end Steps

/-- The indexed steps are among the declared ones, each once. -/
theorem sum_byID_le (wf : WorkflowConfig) (f : StepConfig → ℕ) :
    ∑ id ∈ (order wf).toFinset, f (byID wf id) ≤ (wf.steps.map f).sum := by
  have hnodup : ((order wf).dedup.map (byID wf)).Nodup := by
    refine (nodup_dedup _).map_on fun x hx y hy hxy => ?_
    rw [← byID_id (mem_dedup.mp hx), hxy, byID_id (mem_dedup.mp hy)]
  have hsub : (order wf).dedup.map (byID wf) ⊆ wf.steps := by
    intro c hc
    obtain ⟨id, hid, rfl⟩ := mem_map.mp hc
    exact byID_mem (mem_dedup.mp hid)
  obtain ⟨indexed, hperm, hsublist⟩ := subperm_of_subset hnodup hsub
  calc ∑ id ∈ (order wf).toFinset, f (byID wf id)
      = (((order wf).dedup.map (byID wf)).map f).sum := by
        rw [map_map]
        rfl
    _ = (indexed.map f).sum := (hperm.symm.map f).sum_eq
    _ ≤ (wf.steps.map f).sum := (hsublist.map f).sum_le_sum fun _ _ => Nat.zero_le _

/-- The retries of a run are bounded by the budgets of the workflow. -/
theorem Budgeted.retried_le (hb : Budgeted s) : s.run.retried ≤ retryBudget s.run.wf := by
  calc s.run.retried
      ≤ ∑ key ∈ Finset.univ ×ˢ (order s.run.wf).toFinset,
          edgeBudget (retryEdge key.1 (byID s.run.wf key.2)) :=
        Finset.sum_le_sum fun key _ => hb.within key
    _ = ∑ id ∈ (order s.run.wf).toFinset, (edgeBudget (byID s.run.wf id).onFail +
          edgeBudget (byID s.run.wf id).onConflict) := by
        rw [Finset.sum_product_right]
        exact Finset.sum_congr rfl fun id _ => by simp [retryEdge, add_comm]
    _ ≤ retryBudget s.run.wf :=
        sum_byID_le s.run.wf fun c => edgeBudget c.onFail + edgeBudget c.onConflict

end Apiary.Workflow
