import Apiary.Config.Guards
import Apiary.Core.Trim
import Apiary.Workflow.Emissions

/-!
# Qualified references

An author refers to the output of a step as `<step>.<field>`.  Lowering turns this into
`memory.<field>`, and memory holds one value for a field: that of the last entry that
carries it, in declaration order.  A reference therefore reads what its step emitted
last only while no later entry carries a field of the same name.
-/

namespace Apiary.Config

open List Option

/-! ## The scheduler's view of a lowered step -/

mutual

/-- The fields of a step that the scheduler reads. -/
def toStepConfig : AuthoredStep → StepConfig
  | ⟨fields, subSteps, _, step⟩ =>
    { id := fields.id
      type := fields.type
      dependsOn := fields.dependsOn
      seqDependsOn := fields.seqDependsOn
      condition := fields.condition
      failWhen := fields.failWhen
      agent := fields.details.agent
      outputSchema := fields.outputSchema
      onMissingOutput := fields.details.onMissingOutput
      memoryWrite := fields.memoryWrite
      onPass := fields.details.onPass
      onFail := fields.onFail
      onConflict := fields.details.onConflict
      actionClass := fields.details.actionClass
      multi := fields.details.multi
      branches := fields.branches
      approvers := fields.details.approvers
      requiredApprovals := fields.details.requiredApprovals
      timeout := fields.details.timeout
      waitFor := fields.details.waitFor
      items := fields.items
      concurrency := fields.concurrency
      maxItems := fields.maxItems
      failFast := fields.failFast
      step := toBodyConfig step
      workflow := fields.details.workflow
      subSteps := toStepConfigs subSteps
      join := fields.join }

def toStepConfigs : List AuthoredStep → List StepConfig
  | [] => []
  | s :: steps => toStepConfig s :: toStepConfigs steps

def toBodyConfig : Option AuthoredStep → Option StepConfig
  | none => none
  | some s => some (toStepConfig s)

end

def AuthoredWorkflow.toConfig (wf : AuthoredWorkflow) : WorkflowConfig :=
  ⟨wf.id, toStepConfigs wf.steps⟩

/-! ## References -/

/-- The references in the `if:` of a step and of the groups around it, those that lowering
rewrites. -/
def guardRefs (wf : AuthoredWorkflow) (id : String) : List (String × String) :=
  ((origins wf).filter fun o => o.step.id = id && o.treatment ≠ .kept).flatMap fun o =>
    (o.groups ++ [o.step.ifExpr]).flatMap fun expr =>
      (LowerCtx.rewriteExpr ⟨indexSteps wf.steps⟩ expr).2

/-- The references in the `reject_when:` of a step. -/
def gateRefs (wf : AuthoredWorkflow) (id : String) : List (String × String) :=
  ((origins wf).filter fun o => o.step.id = id && o.treatment ≠ .kept).flatMap fun o =>
    (LowerCtx.lowerGate ⟨indexSteps wf.steps⟩ o.step).2

/-- A stretch of an authored expression: text that is copied, or a reference. -/
inductive Stretch where
  | copied (text : List Char)
  | reference (step field : String)

namespace Stretch

def authored : Stretch → List Char
  | .copied text => text
  | .reference step field => step.toList ++ '.' :: field.toList

def lowered : Stretch → List Char
  | .copied text => text
  | .reference _ field => "memory.".toList ++ field.toList

theorem lowered_reference (step field : String) :
    (reference step field).lowered = "memory.".toList ++ field.toList := rfl

def target : Stretch → Option (String × String)
  | .copied _ => none
  | .reference step field => some (step, field)

end Stretch

/-- The rewrite copies a text but for its references, which become `memory.<field>`. -/
theorem rewriteFrom_stretches (isStep : String → Bool) {fuel : ℕ} {cs : List Char}
    (hfuel : cs.length ≤ fuel) : ∃ stretches : List Stretch,
      cs = stretches.flatMap Stretch.authored ∧ rewriteFrom isStep fuel cs =
        (stretches.flatMap Stretch.lowered, stretches.filterMap Stretch.target) := by
  induction fuel generalizing cs with
  | zero => exact ⟨[], eq_nil_of_length_eq_zero (Nat.le_zero.mp hfuel), rfl⟩
  | succ fuel ih =>
    cases cs with
    | nil => exact ⟨[], rfl, rfl⟩
    | cons c cs =>
      have hlength : cs.length ≤ fuel := Nat.le_of_succ_le_succ hfuel
      have hrest : (cs.dropWhile isIdentRune).length ≤ fuel :=
        (length_dropWhile_le _ _).trans hlength
      simp only [rewriteFrom]
      split_ifs with hident href
      · -- a reference: the scan goes on behind its field
        simp only [Bool.and_eq_true, decide_eq_true_eq] at href
        obtain ⟨rest, hdot⟩ := head?_eq_some_iff.mp href.1.1
        have hbound : (rest.dropWhile isIdentRune).length ≤ fuel := by
          rw [hdot, length_cons] at hrest
          exact (length_dropWhile_le _ _).trans (Nat.le_of_succ_le hrest)
        obtain ⟨stretches, htext, hout⟩ := ih hbound
        refine ⟨.reference (String.ofList (c :: cs.takeWhile isIdentRune))
          (String.ofList (rest.takeWhile isIdentRune)) :: stretches, ?_, ?_⟩
        · rw [flatMap_cons, ← htext, Stretch.authored, String.toList_ofList, String.toList_ofList,
            append_assoc, cons_append, cons_append, takeWhile_append_dropWhile, ← hdot,
            takeWhile_append_dropWhile]
        · rw [hdot, tail_cons, hout, flatMap_cons]
          refine Prod.ext ?_ rfl
          rw [Stretch.lowered_reference, String.toList_ofList, String.toList_ofList]
      · obtain ⟨stretches, htext, hout⟩ := ih hrest
        refine ⟨.copied (c :: cs.takeWhile isIdentRune) :: stretches, ?_, by rw [hout]; rfl⟩
        rw [flatMap_cons, ← htext, Stretch.authored, cons_append, takeWhile_append_dropWhile]
      · obtain ⟨stretches, htext, hout⟩ := ih hlength
        exact ⟨.copied [c] :: stretches, congrArg (c :: ·) htext, by rw [hout]; rfl⟩

/-- The author wrote the reference in `expr`, and `lowered` has the text of `expr` with
`memory.<field>` in the place of its references. -/
def ReplacedIn (expr lowered : String) (ref : String × String) : Prop :=
  ∃ stretches : List Stretch, .reference ref.1 ref.2 ∈ stretches ∧
    (lowerExpr expr).toList = stretches.flatMap Stretch.authored ∧
    trimSpace (stretches.flatMap Stretch.lowered) <:+: lowered.toList

section Replaced

variable {lc : LowerCtx} {wf out : AuthoredWorkflow} {id expr : String} {ref : String × String}

theorem replacedIn_of_mem {lowered : String} (href : ref ∈ (lc.rewriteExpr expr).2)
    (htext : trimSpace (lc.rewriteExpr expr).1.toList <:+: lowered.toList) :
    ReplacedIn expr lowered ref := by
  obtain ⟨stretches, hexpr, hout⟩ :=
    rewriteFrom_stretches lc.isStep (le_refl (lowerExpr expr).toList.length)
  simp only [LowerCtx.rewriteExpr, stepRefs, hout] at href
  simp only [LowerCtx.rewriteExpr, rewriteStepRefs, String.toList_ofList, hout] at htext
  obtain ⟨stretch, hmem, htarget⟩ := mem_filterMap.mp href
  refine ⟨stretches, ?_, hexpr, htext⟩
  cases stretch with
  | copied => cases htarget
  | reference step field =>
    cases htarget
    exact hmem

theorem trimmed_composeCond (a b : String) : trimmed (composeCond a b) = composeCond a b := by
  rw [composeCond_eq]
  split_ifs
  · exact trimmed_trimmed b
  · exact trimmed_trimmed a
  · exact trimmed_conjunction _ _

theorem trimmed_infix_composeCond (a b : String) :
    (trimmed a).toList <:+: (composeCond a b).toList ∧
      (trimmed b).toList <:+: (composeCond a b).toList := by
  rw [composeCond_eq]
  split_ifs with ha hb
  · exact ⟨by simp [ha], infix_rfl⟩
  · exact ⟨infix_rfl, by simp [hb]⟩
  · rw [Expr.conjunction_toList]
    refine ⟨⟨['('], _, rfl⟩, ?_⟩
    exact ⟨'(' :: ((trimmed a).toList ++ [')', ' ', 'a', 'n', 'd', ' ', '(']), [')'], by simp⟩

/-- Every `if:` that is joined into a guard stands in it. -/
theorem rewritten_infix_joined {exprs : List String} (hexpr : expr ∈ exprs) :
    trimSpace (lc.rewriteExpr expr).1.toList <:+: (lc.joined exprs).toList := by
  induction exprs using reverseRecOn with
  | nil => cases hexpr
  | append_singleton exprs last ih =>
    rw [joined_append]
    obtain ⟨hleft, hright⟩ := trimmed_infix_composeCond (lc.joined exprs) (lc.rewriteExpr last).1
    rcases mem_append.mp hexpr with hexpr | hlast
    · have htrimmed : trimmed (lc.joined exprs) = lc.joined exprs := by
        rcases eq_nil_or_concat' exprs with rfl | ⟨exprs, more, rfl⟩
        · rfl
        · rw [joined_append, trimmed_composeCond]
      rw [htrimmed] at hleft
      exact (ih hexpr).trans hleft
    · rw [mem_singleton.mp hlast]
      exact (trimmed_toList _) ▸ hright

/-- The emitted step of an origin. -/
theorem exists_emitted (hlower : lowerV2Workflow wf = .ok out) {o : Origin} (ho : o ∈ origins wf) :
    ∃ s ∈ allSteps out.steps, s.id = o.step.id ∧
      s.control = o.lowered ⟨indexSteps wf.steps⟩ := by
  have hmem : o.named ⟨indexSteps wf.steps⟩ ∈ (allSteps out.steps).map AuthoredStep.named := by
    rw [lowerV2Workflow_matches hlower]
    exact mem_map_of_mem ho
  obtain ⟨s, hs, hnamed⟩ := mem_map.mp hmem
  rw [AuthoredStep.named, Origin.named, Prod.mk.injEq] at hnamed
  exact ⟨s, hs, hnamed⟩

theorem guardRefs_replaced (hlower : lowerV2Workflow wf = .ok out) (href : ref ∈ guardRefs wf id) :
    ∃ o ∈ origins wf, ∃ expr ∈ o.groups ++ [o.step.ifExpr], ∃ s ∈ allSteps out.steps,
      o.step.id = id ∧ s.id = id ∧ ReplacedIn expr s.condition ref := by
  obtain ⟨o, ho, href⟩ := mem_flatMap.mp href
  obtain ⟨expr, hexpr, href⟩ := mem_flatMap.mp href
  obtain ⟨ho, hid⟩ := mem_filter.mp ho
  rw [Bool.and_eq_true, decide_eq_true_eq, decide_eq_true_eq] at hid
  obtain ⟨s, hs, hsame, hcontrol⟩ := exists_emitted hlower ho
  have hcondition : s.condition =
      LowerCtx.joined ⟨indexSteps wf.steps⟩ (o.groups ++ [o.step.ifExpr]) := by
    have hlowered : s.condition = (o.lowered ⟨indexSteps wf.steps⟩).condition :=
      congrArg Control.condition hcontrol
    rw [hlowered, Origin.lowered]
    split
    · rfl
    · rfl
    · exact absurd ‹_› hid.2
  refine ⟨o, ho, expr, hexpr, s, hs, hid.1, hsame.trans hid.1, replacedIn_of_mem href ?_⟩
  rw [hcondition]
  exact rewritten_infix_joined hexpr

theorem gateRefs_replaced (hlower : lowerV2Workflow wf = .ok out) (href : ref ∈ gateRefs wf id) :
    ∃ o ∈ origins wf, ∃ s ∈ allSteps out.steps,
      o.step.id = id ∧ s.id = id ∧ ReplacedIn o.step.rejectWhen s.failWhen ref := by
  obtain ⟨o, ho, href⟩ := mem_flatMap.mp href
  obtain ⟨ho, hid⟩ := mem_filter.mp ho
  rw [Bool.and_eq_true, decide_eq_true_eq, decide_eq_true_eq] at hid
  obtain ⟨s, hs, hsame, hcontrol⟩ := exists_emitted hlower ho
  have hgate : s.failWhen = (LowerCtx.lowerGate ⟨indexSteps wf.steps⟩ o.step).1 := by
    have hlowered : s.failWhen = (o.lowered ⟨indexSteps wf.steps⟩).failWhen :=
      congrArg Control.failWhen hcontrol
    rw [hlowered, Origin.lowered]
    split
    · rfl
    · rfl
    · exact absurd ‹_› hid.2
  rw [LowerCtx.lowerGate] at href hgate
  split_ifs at href hgate
  · cases href
  · refine ⟨o, ho, s, hs, hid.1, hsame.trans hid.1, replacedIn_of_mem href ?_⟩
    rw [hgate]
    exact trimSpace_infix_self _

end Replaced

end Apiary.Config

namespace Apiary.Workflow

open Config Apiary.Expr List Option

variable {value : Value} {contribs : List MemoryStep} {wr : WorkerResult}

/-! ## Memory by field -/

/-- The entry persists the field. -/
def MemoryStep.carries (ms : MemoryStep) (field : String) : Bool :=
  field ∈ ms.writeFields && (ms.structured.lookup field).isSome

/-- The entries of memory, with the name that they are the contribution of. -/
def DagRun.entries (r : DagRun) : List (Option String × MemoryStep) :=
  r.seed.map (Prod.mk none) ++ (order r.wf).flatMap fun id =>
    (r.contrib id).toList.map (Prod.mk (some id)) ++ (byID r.wf id).subSteps.filterMap
        (fun child => (r.contrib child.id).map (Prod.mk (some child.id))) ++
      (r.feedback id).map (Prod.mk none)

/-- The entry that a reader of the field sees. -/
def DagRun.shown (r : DagRun) (field : String) : Option (Option String × MemoryStep) :=
  (r.entries.filter fun entry => entry.2.carries field).getLast?

section Memory

variable {e : Engine} {memory : String → Option String} {fields : Structured} {field : String}

theorem overlay_cons (entry : String × Value) : overlay e memory (entry :: fields) =
      overlay e (Function.update memory entry.1 (some (e.renderValue entry.2))) fields := rfl

theorem overlay_of_not_mem (hfield : ∀ value, (field, value) ∉ fields) :
    overlay e memory fields field = memory field := by
  induction fields generalizing memory with
  | nil => rfl
  | cons entry fields ih =>
    have hne : field ≠ entry.1 := by
      rintro rfl
      exact hfield entry.2 mem_cons_self
    rw [overlay_cons, ih fun value hmem => hfield value (mem_cons_of_mem _ hmem),
      Function.update_of_ne hne]

/-- If a field has one value, that is what is written. -/
theorem overlay_of_mem (hmem : (field, value) ∈ fields)
    (hall : ∀ value', (field, value') ∈ fields → value' = value) :
    overlay e memory fields field = some (e.renderValue value) := by
  induction fields generalizing memory with
  | nil => cases hmem
  | cons entry fields ih =>
    rw [overlay_cons]
    by_cases hlater : (field, value) ∈ fields
    · exact ih hlater fun value' hmem' => hall value' (mem_cons_of_mem _ hmem')
    · obtain rfl : (field, value) = entry := (mem_cons.mp hmem).resolve_right hlater
      rw [overlay_of_not_mem, Function.update_self]
      intro value' hmem'
      apply hlater
      rwa [← hall value' (mem_cons_of_mem _ hmem')]

theorem mem_of_lookup (hlookup : fields.lookup field = some value) : (field, value) ∈ fields := by
  obtain ⟨before, after, rfl, -⟩ := lookup_eq_some_iff.mp hlookup
  exact mem_append_right _ mem_cons_self

theorem not_mem_of_lookup (hlookup : fields.lookup field = none) (value : Value) :
    (field, value) ∉ fields := by
  intro hmem
  have hne := lookup_eq_none_iff.mp hlookup (field, value) hmem
  simp at hne

/-- A report whose keys are different is a map. -/
theorem lookup_of_mem (hkeys : (fields.map Prod.fst).Nodup) {value' : Value}
    (hlookup : fields.lookup field = some value) (hmem : (field, value') ∈ fields) :
    value' = value := by
  have hpair := inj_on_of_nodup_map hkeys hmem (mem_of_lookup hlookup) rfl
  exact (Prod.mk.inj hpair).2

theorem overlay_report (hkeys : (fields.map Prod.fst).Nodup)
    (hlookup : fields.lookup field = some value) :
    overlay e memory fields field = some (e.renderValue value) := by
  apply overlay_of_mem (mem_of_lookup hlookup)
  intro value' hmem
  exact lookup_of_mem hkeys hlookup hmem

theorem overlay_entry (ms : MemoryStep) : overlay e memory (ms.writeFields.filterMap fun field =>
        (ms.structured.lookup field).map fun v => (field, v)) field =
      if ms.carries field then (ms.structured.lookup field).map e.renderValue
      else memory field := by
  have hwritten : ∀ value, (field, value) ∈ (ms.writeFields.filterMap fun field =>
      (ms.structured.lookup field).map fun v => (field, v)) ↔
        field ∈ ms.writeFields ∧ ms.structured.lookup field = some value := by
    intro value
    simp only [mem_filterMap, map_eq_some_iff, Prod.mk.injEq]
    constructor
    · rintro ⟨_, hwrite, v, hv, rfl, rfl⟩
      exact ⟨hwrite, hv⟩
    · rintro ⟨hwrite, hv⟩
      exact ⟨field, hwrite, value, hv, rfl, rfl⟩
  split_ifs with hcarries
  · rw [MemoryStep.carries, Bool.and_eq_true, decide_eq_true_eq, isSome_iff_exists]
      at hcarries
    obtain ⟨hwrite, value, hvalue⟩ := hcarries
    rw [hvalue, map_some]
    apply overlay_of_mem ((hwritten value).mpr ⟨hwrite, hvalue⟩)
    intro value' hmem
    exact (some.inj (hvalue.symm.trans ((hwritten value').mp hmem).2)).symm
  · apply overlay_of_not_mem
    intro value hmem
    obtain ⟨hwrite, hvalue⟩ := (hwritten value).mp hmem
    simp [MemoryStep.carries, hwrite, hvalue] at hcarries

theorem memoryValuesFrom_eq (steps : List MemoryStep) (field : String) :
    memoryValuesFrom e steps field =
      (steps.filter fun ms => ms.carries field).getLast?.bind fun ms =>
        (ms.structured.lookup field).map e.renderValue := by
  induction steps using List.reverseRecOn with
  | nil => rfl
  | append_singleton steps ms ih =>
    have hstep : memoryValuesFrom e (steps ++ [ms]) field =
        if ms.carries field then (ms.structured.lookup field).map e.renderValue
        else memoryValuesFrom e steps field := by
      rw [memoryValuesFrom, foldl_append]
      exact overlay_entry ms
    rw [hstep, filter_append]
    split_ifs with hcarries
    · rw [filter_singleton, hcarries]
      simp
    · rw [filter_singleton, Bool.of_not_eq_true hcarries, cond_false, append_nil]
      exact ih

theorem foldl_overlay_of_none (hnone : ∀ c ∈ contribs, c.structured.lookup field = none) :
    contribs.foldl (fun m c => overlay e m c.structured) memory field = memory field := by
  induction contribs generalizing memory with
  | nil => rfl
  | cons c contribs ih =>
    rw [foldl_cons, ih fun c' hc' => hnone c' (mem_cons_of_mem _ hc')]
    apply overlay_of_not_mem
    exact not_mem_of_lookup (hnone c mem_cons_self)

theorem foldl_overlay_of_last {c : MemoryStep}
    (hlast : (contribs.filter fun c => (c.structured.lookup field).isSome).getLast? = some c)
    (hkeys : (c.structured.map Prod.fst).Nodup) :
    contribs.foldl (fun m c => overlay e m c.structured) memory field =
      (c.structured.lookup field).map e.renderValue := by
  obtain ⟨before, hfilter⟩ := getLast?_eq_some_iff.mp hlast
  obtain ⟨first, rest, rfl, -, hrest⟩ := filter_eq_append_iff.mp hfilter
  obtain ⟨skipped, after, rfl, hskipped, hc, hafter⟩ := filter_eq_cons_iff.mp hrest
  obtain ⟨value, hvalue⟩ := isSome_iff_exists.mp hc
  rw [foldl_append, foldl_append, foldl_cons, foldl_overlay_of_none, hvalue]
  · exact overlay_report hkeys hvalue
  · intro c' hc'
    exact not_isSome_iff_eq_none.mp (filter_eq_nil_iff.mp hafter c' hc')

theorem entries_snd (r : DagRun) : r.entries.map Prod.snd = r.memSteps := by
  rw [DagRun.entries, DagRun.memSteps, map_append, map_flatMap]
  congr 1
  · simp
  · apply flatMap_congr
    intro id _
    simp only [map_append, List.map_map, map_filterMap]
    congr 1
    · congr 1
      · simp
      · apply filterMap_congr
        intro child _
        cases r.contrib child.id <;> rfl
    · simp

/-- An entry under a name is the contribution of that name. -/
theorem entries_contrib {r : DagRun} {id : String} {ms : MemoryStep}
    (hmem : (some id, ms) ∈ r.entries) : r.contrib id = some ms := by
  simp only [DagRun.entries, mem_append, List.mem_map, mem_flatMap, Prod.mk.injEq,
    mem_filterMap, map_eq_some_iff, mem_toList, some.injEq,
    reduceCtorEq, false_and, and_false, exists_false, or_false, false_or] at hmem
  obtain ⟨id', -, ⟨ms', hms, rfl, rfl⟩ | ⟨child, -, ms', hms, rfl, rfl⟩⟩ := hmem
  · exact hms
  · exact hms

theorem memory_shown (r : DagRun) (field : String) :
    memoryValuesFrom e r.memSteps field = (r.shown field).bind fun entry =>
      (entry.2.structured.lookup field).map e.renderValue := by
  rw [memoryValuesFrom_eq, ← entries_snd, List.filter_map, getLast?_map, bind_map]
  rfl

end Memory

/-! ## What the scheduler evaluates -/

/-- An expression that the scheduler evaluates: the guard of a step it dispatches, or the
gate of a result it receives. -/
inductive Reading where
  | guard (id : String)
  | gate (wr : WorkerResult)

/-- The gate of a result is evaluated, over the result as the check for missing output
leaves it. -/
def evaluatesGate (e : Engine) (s : DriveState) (wr : WorkerResult) : Bool :=
  let res := (applyMissingOutput wr.step (canceledResult s.ctxErr wr.res)).1
  !s.run.stopped && !parks wr && res.success && wr.step.failWhen ≠ "" &&
    match e.parseExpr (stripExprDelimiters wr.step.failWhen) with
    | .error _ => false
    | .ok gate => failClosedKeys e gate wr.step res wr.parallelContribs = []

/-- The expression that the next action of the scheduler evaluates. -/
def reading (e : Engine) (s : DriveState) : Option Reading :=
  match s.phase with
  | .dispatch (id :: _) => if (byID s.run.wf id).condition = "" then none else some (.guard id)
  | .recv => (s.resultCh.head?.filter (evaluatesGate e s)).map .gate
  | _ => none

/-- The context it is evaluated in. -/
def Reading.context (e : Engine) (s : DriveState) : Reading → EvalContext
  | .guard _ => s.run.evalContext e
  | .gate wr =>
    { (s.run.closeWindow wr.step).evalContext e with
      memory := transientMemory e (s.run.closeWindow wr.step) wr.step
        (applyMissingOutput wr.step (canceledResult s.ctxErr wr.res)).1 wr.parallelContribs }

/-- The references that the author wrote in it. -/
def Reading.refs (wf : AuthoredWorkflow) : Reading → List (String × String)
  | .guard id => guardRefs wf id
  | .gate wr => gateRefs wf wr.step.id

/-- The author wrote the reference in an expression of the step, and in the lowered workflow
`memory.<field>` stands in its place. -/
def Reading.Replaced (wf out : AuthoredWorkflow) (ref : String × String) : Reading → Prop
  | .guard id => ∃ o ∈ origins wf, ∃ expr ∈ o.groups ++ [o.step.ifExpr], ∃ s ∈ allSteps out.steps,
      o.step.id = id ∧ s.id = id ∧ ReplacedIn expr s.condition ref
  | .gate wr => ∃ o ∈ origins wf, ∃ s ∈ allSteps out.steps,
      o.step.id = wr.step.id ∧ s.id = wr.step.id ∧ ReplacedIn o.step.rejectWhen s.failWhen ref

theorem Reading.replaced {wf out : AuthoredWorkflow} (hlower : lowerV2Workflow wf = .ok out)
    {r : Reading} {ref : String × String} (href : ref ∈ r.refs wf) : r.Replaced wf out ref := by
  cases r with
  | guard => exact guardRefs_replaced hlower href
  | gate => exact gateRefs_replaced hlower href

/-- The entry of memory that a reader of the field sees is the contribution of the step, or
there is none and the step has emitted none. -/
def DagRun.ShowsOwn (r : DagRun) (em : Emissions) (id field : String) : Prop :=
  match r.shown field with
  | none => em id field = none
  | some entry => entry.1 = some id ∧ id ∈ stepNames r.wf

/-- The value that the expression sees for a field is one of the step itself. -/
def Reading.Own (o : Observed) (id field : String) : Reading → Prop
  | .guard _ => o.drive.run.ShowsOwn o.emitted id field
  | .gate wr =>
    match (if wr.step.type = .parallel then
        (wr.parallelContribs.filter fun c => (c.structured.lookup field).isSome).getLast?
      else none) with
    | some c => c.stepID = id ∧ (c.structured.map Prod.fst).Nodup
    | none =>
      if (wr.res.structuredOutput.lookup field).isSome then
        wr.step.id = id ∧ (wr.res.structuredOutput.map Prod.fst).Nodup
      else o.drive.run.ShowsOwn o.emitted id field

section Values

variable {e : Engine} {wf : WorkflowConfig} {o : Observed} {id field : String}

theorem ShowsOwn.memory (ho : Recorded wf o)
    (hown : o.drive.run.ShowsOwn o.emitted id field) :
    memoryValuesFrom e o.drive.run.memSteps field = (o.emitted id field).map e.renderValue := by
  rw [memory_shown]
  rw [DagRun.ShowsOwn] at hown
  split at hown
  · rename_i hshown
    rw [hshown, hown]
    rfl
  · rename_i entry hshown
    obtain ⟨hentry, hid⟩ := hown
    obtain ⟨hmem, hcarries⟩ := mem_filter.mp (mem_of_getLast? hshown)
    obtain ⟨value, hvalue⟩ := isSome_iff_exists.mp (Bool.and_eq_true_iff.mp hcarries).2
    have hcontrib : o.drive.run.contrib id = some entry.2 := entries_contrib (hentry ▸ hmem)
    rw [ho.wf] at hid
    rw [hshown, bind_some, hvalue, ho.contribution hid hcontrib field value hvalue]

theorem applyMissingOutput_structured (step : StepConfig) (res : StepResult) :
    (applyMissingOutput step res).1.structuredOutput = res.structuredOutput := by
  rw [applyMissingOutput]
  split
  · rfl
  · split <;> rfl

theorem canceledResult_structured (ctxErr : Option String) (res : StepResult) :
    (canceledResult ctxErr res).structuredOutput = res.structuredOutput := by
  cases ctxErr <;> rfl

theorem closeWindow_memSteps (r : DagRun) (step : StepConfig) :
    (r.closeWindow step).memSteps = r.memSteps := by
  rw [DagRun.closeWindow]
  split
  · split <;> rfl
  · rfl
  · rfl

theorem gate_memory (ho : Recorded wf o) (hwr : wr ∈ o.drive.resultCh)
    (hown : Reading.Own o id field (.gate wr)) :
    ((Reading.gate wr).context e o.drive).memory field =
      (o.emitted id field).map e.renderValue := by
  have htracked := ho.tracked.results wr hwr
  -- the layers under the children: what the step reported, and memory
  have hunder : (if (wr.res.structuredOutput.lookup field).isSome then
        wr.step.id = id ∧ (wr.res.structuredOutput.map Prod.fst).Nodup
      else o.drive.run.ShowsOwn o.emitted id field) →
      overlay e (memoryValuesFrom e o.drive.run.memSteps) wr.res.structuredOutput field =
        (o.emitted id field).map e.renderValue := by
    intro hown
    split at hown
    · rename_i hsome
      obtain ⟨rfl, hkeys⟩ := hown
      obtain ⟨value, hvalue⟩ := isSome_iff_exists.mp hsome
      rw [overlay_report hkeys hvalue, htracked.own field value hvalue]
      rfl
    · rename_i hnone
      rw [overlay_of_not_mem (not_mem_of_lookup (not_isSome_iff_eq_none.mp hnone))]
      exact ShowsOwn.memory ho hown
  simp only [Reading.context, transientMemory, applyMissingOutput_structured,
    canceledResult_structured, closeWindow_memSteps]
  simp only [Reading.Own] at hown
  by_cases htype : wr.step.type = .parallel
  · rw [if_pos htype]
    rw [if_pos htype] at hown
    split at hown
    · rename_i c hlast
      obtain ⟨rfl, hkeys⟩ := hown
      obtain ⟨hmem, hsome⟩ := mem_filter.mp (mem_of_getLast? hlast)
      obtain ⟨value, hvalue⟩ := isSome_iff_exists.mp hsome
      rw [foldl_overlay_of_last hlast hkeys, hvalue,
        (htracked.contribs c hmem).2 field value hvalue]
    · rename_i hnone
      rw [foldl_overlay_of_none]
      · exact hunder hown
      · intro c hc
        have hfilter := getLast?_eq_none_iff.mp hnone
        exact not_isSome_iff_eq_none.mp (filter_eq_nil_iff.mp hfilter c hc)
  · rw [if_neg htype]
    rw [if_neg htype] at hown
    exact hunder hown

theorem reading_gate {s : DriveState} (hreading : reading e s = some (.gate wr)) :
    wr ∈ s.resultCh := by
  rw [reading] at hreading
  split at hreading
  · split at hreading <;> cases hreading
  · obtain ⟨wr', hwr, heq⟩ := map_eq_some_iff.mp hreading
    cases heq
    exact mem_of_head? (filter_eq_some_iff.mp hwr).1
  · cases hreading

end Values

/-- In every run of a lowered workflow whose steps have different names, lowering has put
`memory.<field>` in the place of a reference `<step>.<field>`, and this accessor evaluates to
what the step emitted last whenever the value that is seen for the field is one of that
step. -/
theorem reference_reads_last_emission (wf out : AuthoredWorkflow)
    (hlower : lowerV2Workflow wf = .ok out) (hnames : (stepNames out.toConfig).Nodup)
    (ops : Ops) (concurrency : ℕ) (instID : String) (cell : SourceItem) (seed : List MemoryStep)
    (event : String → Option String) (es : List Event) (o : Observed)
    (hrun : Machine.exec (Observed.step (engine ops concurrency))
      (Observed.start instID out.toConfig cell seed event) es = some o)
    (r : Reading) (hreading : reading (engine ops concurrency) o.drive = some r) :
    ∀ ref ∈ r.refs wf, r.Replaced wf out ref ∧ (r.Own o ref.1 ref.2 →
      resolveAccessor ["memory", ref.2] (r.context (engine ops concurrency) o.drive) =
        .ok (orMissing ((o.emitted ref.1 ref.2).map ops.renderValue))) := by
  intro ref href
  refine ⟨r.replaced hlower href, fun hown => ?_⟩
  have ho := recorded_run (engine ops concurrency) hnames instID cell seed event hrun
  have hmemory : (r.context (engine ops concurrency) o.drive).memory ref.2 =
      (o.emitted ref.1 ref.2).map (engine ops concurrency).renderValue := by
    cases r with
    | guard => exact ShowsOwn.memory ho hown
    | gate => exact gate_memory ho (reading_gate hreading) hown
  change Except.ok (orMissing ((r.context (engine ops concurrency) o.drive).memory ref.2)) = _
  rw [hmemory]
  rfl

/-! ## Two verdicts -/

/-- Two steps that emit a verdict, and a merge that asks for that of `qa`. -/
def mergeWhenApproved (first second : String) : AuthoredWorkflow where
  id := "merge-when-approved"
  steps :=
    [{ id := first, output := some ["verdict"] }, { id := second, output := some ["verdict"] },
      { id := "merge", ifExpr := "$\x7b\x7b qa.verdict == 'approved' \x7d\x7d" }]

def verdict (text : String) : StepResult where
  success := true
  structuredOutput := [("verdict", .string text)]

/-- Both steps pass, one after the other, and the scheduler comes to the merge. -/
def bothPass (first second : String) : List Event :=
  List.replicate 4 (.sched 0) ++ runWorker 0 (verdict first) ++
    List.replicate 5 (.sched 0) ++ runWorker 0 (verdict second) ++ List.replicate 2 (.sched 0)

/-- The lowered workflow, and where a fresh run of it comes. -/
def lowerAndRun (wf : AuthoredWorkflow) (es : List Event) : Option (AuthoredWorkflow × Observed) :=
  (lowerV2Workflow wf).toOption.bind fun out =>
    (Machine.exec (Observed.step (engine textOps 1))
      (Observed.start "run-1" out.toConfig {} [] fun _ => none) es).map (Prod.mk out)

theorem lowerAndRun_eq_some {wf out : AuthoredWorkflow} {es : List Event} {o : Observed}
    (hrun : lowerAndRun wf es = some (out, o)) :
    lowerV2Workflow wf = .ok out ∧ Machine.exec (Observed.step (engine textOps 1))
        (Observed.start "run-1" out.toConfig {} [] fun _ => none) es = some o := by
  obtain ⟨out', hlower, hmap⟩ := bind_eq_some_iff.mp hrun
  obtain ⟨o', hexec, heq⟩ := map_eq_some_iff.mp hmap
  cases heq
  cases hout : lowerV2Workflow wf with
  | error =>
    rw [hout] at hlower
    cases hlower
  | ok =>
    rw [hout] at hlower
    cases hlower
    exact ⟨rfl, hexec⟩

/-- What is seen of a state in which the scheduler comes to the merge: whether it does, whose
verdict memory shows, the one `qa` emitted and the one the guard reads. -/
def Observed.atMerge (o : Observed) :
    Bool × Option (Option String) × Option String × Option String :=
  (match o.drive.phase with
    | .dispatch (id :: _) => id = "merge" && (byID o.drive.run.wf id).condition ≠ ""
    | _ => false,
    (o.drive.run.shown "verdict").map Prod.fst,
    (o.emitted "qa" "verdict").map textOps.renderValue,
    memoryValuesFrom (engine textOps 1) o.drive.run.memSteps "verdict")

theorem reading_atMerge {o : Observed} (hmerge : o.atMerge.1 = true) :
    reading (engine textOps 1) o.drive = some (.guard "merge") := by
  rw [Observed.atMerge] at hmerge
  dsimp only at hmerge
  split at hmerge
  · rename_i hphase
    rw [Bool.and_eq_true, decide_eq_true_eq, decide_eq_true_eq] at hmerge
    obtain ⟨rfl, hcondition⟩ := hmerge
    rw [reading, hphase]
    exact if_neg hcondition
  · cases hmerge

/-- The verdict of `qa` is read where `qa` is declared last. -/
theorem mergeWhenApproved_reads_qa :
    ∃ out o, lowerAndRun (mergeWhenApproved "review" "qa") (bothPass "rejected" "approved") =
        some (out, o) ∧
      ("qa", "verdict") ∈ (Reading.guard "merge").refs (mergeWhenApproved "review" "qa") ∧
      resolveAccessor ["memory", "verdict"]
        ((Reading.guard "merge").context (engine textOps 1) o.drive) =
          .ok (orMissing ((o.emitted "qa" "verdict").map textOps.renderValue)) := by
  have hrun := (some_get (by decide +kernel : (lowerAndRun (mergeWhenApproved "review" "qa")
    (bothPass "rejected" "approved")).isSome = true)).symm
  have hrefs : ("qa", "verdict") ∈
      (Reading.guard "merge").refs (mergeWhenApproved "review" "qa") := by
    decide +kernel
  obtain ⟨hlower, hexec⟩ := lowerAndRun_eq_some hrun
  refine ⟨_, _, hrun, hrefs, (reference_reads_last_emission _ _ hlower (by decide +kernel) textOps 1
    _ _ _ _ _ _ hexec _ (reading_atMerge (by decide +kernel)) _ hrefs).2 ?_⟩
  rw [Reading.Own, DagRun.ShowsOwn]
  split
  · rename_i hnone
    exact absurd hnone (by decide +kernel)
  · rename_i entry hshown
    have hentry : some entry.1 = some (some "qa") :=
      (congrArg (Option.map Prod.fst) hshown).symm.trans (by decide +kernel)
    exact ⟨some.inj hentry, by decide +kernel⟩

/-- Declared before `review`, a rejecting `qa` does not stop the merge. -/
theorem mergeWhenApproved_reads_review :
    ∃ out o, lowerAndRun (mergeWhenApproved "qa" "review") (bothPass "rejected" "approved") =
        some (out, o) ∧
      reading (engine textOps 1) o.drive = some (.guard "merge") ∧
      ("qa", "verdict") ∈ (Reading.guard "merge").refs (mergeWhenApproved "qa" "review") ∧
      (o.emitted "qa" "verdict").map textOps.renderValue = some "rejected" ∧
      resolveAccessor ["memory", "verdict"]
        ((Reading.guard "merge").context (engine textOps 1) o.drive) = .ok (.string "approved") ∧
      conditionHolds (engine textOps 1) o.drive.run (byID o.drive.run.wf "merge") = .ok true := by
  refine ⟨_, _, (some_get (by decide +kernel)).symm, reading_atMerge (by decide +kernel),
    by decide +kernel, by decide +kernel, ?_, by decide +kernel⟩
  exact congrArg (Except.ok ∘ orMissing) (show memoryValuesFrom _ _ _ = some "approved" by
    decide +kernel)

end Apiary.Workflow
