import Apiary.Config.Lowering

/-!
# Lowering a lowered workflow

Validation lowers a configuration in place, so a workflow that has been lowered is
lowered again when it is validated again.  The pass leaves it alone only if nothing
in it looks authored, or if what does has no guard to lose.
-/

namespace Apiary.Config

open List LowerCtx

variable {steps : List AuthoredStep} {prevID : String} {e s : AuthoredStep} {writes : Writes}
  {out : AuthoredWorkflow}

/-! ## Sequencing -/

section Sequencing

variable {splitOf : String → Option String}

theorem sequenceFrom_idem (prevID : String) (steps : List AuthoredStep) :
    sequenceFrom splitOf prevID (sequenceFrom splitOf prevID steps) =
      sequenceFrom splitOf prevID steps := by
  induction steps generalizing prevID with
  | nil => rfl
  | cons s steps ih =>
    by_cases hedges : (s.dependsOn = [] && s.seqDependsOn = []) = true
    · simp only [sequenceFrom, hedges, if_true, ih, List.cons.injEq, and_true]
      split <;> rfl
    · simp only [sequenceFrom, hedges, if_false, ih, Bool.false_eq_true]

/-- The part of a step that sequencing reads and no pass over flat steps changes. -/
def AuthoredStep.outline (s : AuthoredStep) : String × StepType × List SplitBranch :=
  (s.id, s.type, s.branches)

theorem splitFor_congr {steps' : List AuthoredStep}
    (houtline : steps'.map AuthoredStep.outline = steps.map AuthoredStep.outline) :
    splitFor steps' = splitFor steps := by
  have hids : ∀ l : List AuthoredStep,
      (l.map fun s => s.id) = (l.map AuthoredStep.outline).map Prod.fst := by
    intro l
    rw [map_map]
    rfl
  have htargets : ∀ l : List AuthoredStep, splitTargets l =
      (l.map AuthoredStep.outline).zipIdx.flatMap fun entry =>
        if entry.1.2.1 = .split then
          (entry.1.2.2.filter fun b => b.goto ≠ "" &&
            entry.2 < lastIndexOf ((l.map AuthoredStep.outline).map Prod.fst) b.goto).map
              fun b => (b.goto, entry.1.1)
        else [] := by
    intro l
    rw [splitTargets, zipIdx_map, flatMap_map, hids]
    rfl
  funext target
  rw [splitFor, splitFor, htargets, htargets, houtline]

theorem sequenceFrom_outline (prevID : String) (steps : List AuthoredStep) :
    (sequenceFrom splitOf prevID steps).map AuthoredStep.outline =
      steps.map AuthoredStep.outline := by
  induction steps generalizing prevID with
  | nil => rfl
  | cons s steps ih =>
    rw [sequenceFrom, map_cons, map_cons, ih]
    congr 1
    split <;> rfl

/-- Sequencing twice is sequencing once. -/
theorem sequenceSteps_idem (steps : List AuthoredStep) :
    sequenceSteps (sequenceSteps steps) = sequenceSteps steps := by
  have hsplit : splitFor (sequenceSteps steps) = splitFor steps :=
    splitFor_congr (sequenceFrom_outline "" steps)
  rw [sequenceSteps, hsplit]
  exact sequenceFrom_idem "" steps

/-- Every step without edges stays without: no split before it names it and no step with
an id is declared before it. -/
def Sequenced (steps : List AuthoredStep) : Prop :=
  ∀ before s after, steps = before ++ s :: after → s.dependsOn = [] → s.seqDependsOn = [] →
    splitFor steps s.id = none ∧ ∀ t ∈ before, t.id = ""

theorem sequenceEdge_eq_nil {split : Option String} :
    sequenceEdge split prevID = [] ↔ split = none ∧ prevID = "" := by
  cases split with
  | some | none => simp [sequenceEdge]

/-- Sequencing changes nothing exactly when a step without an edge has nothing before it. -/
theorem sequenceFrom_eq_self : sequenceFrom splitOf prevID steps = steps ↔
      ∀ before s after, steps = before ++ s :: after → s.dependsOn = [] → s.seqDependsOn = [] →
        splitOf s.id = none ∧ prevID = "" ∧ ∀ t ∈ before, t.id = "" := by
  induction steps generalizing prevID with
  | nil => simp [sequenceFrom]
  | cons s steps ih =>
    rw [sequenceFrom, List.cons.injEq, ih]
    constructor
    · rintro ⟨hhead, htail⟩ before t after hsplit hdepends hseq
      cases before with
      | nil =>
        obtain ⟨rfl, rfl⟩ := List.cons.inj hsplit
        rw [if_pos (by simp [hdepends, hseq])] at hhead
        have hedge := congrArg (fun s : AuthoredStep => s.seqDependsOn) hhead
        obtain ⟨hsplit, hprev⟩ := sequenceEdge_eq_nil.mp (hedge.trans hseq)
        exact ⟨hsplit, hprev, by simp⟩
      | cons first before =>
        obtain ⟨rfl, rfl⟩ := List.cons.inj hsplit
        obtain ⟨htarget, hprev, hbefore⟩ := htail before t after rfl hdepends hseq
        split_ifs at hprev with hid
        · exact ⟨htarget, hprev, forall_mem_cons.mpr ⟨hid, hbefore⟩⟩
        · exact absurd hprev ‹_›
    · intro hall
      constructor
      · by_cases hedges : (s.dependsOn = [] && s.seqDependsOn = []) = true
        · rw [if_pos hedges]
          rw [Bool.and_eq_true, decide_eq_true_eq, decide_eq_true_eq] at hedges
          obtain ⟨hsplit, hprev, -⟩ := hall [] s steps rfl hedges.1 hedges.2
          rw [sequenceEdge_eq_nil.mpr ⟨hsplit, hprev⟩, ← hedges.2]
          cases s
          rfl
        · rw [if_neg hedges]
      · intro before t after hsteps hdepends hseq
        obtain ⟨htarget, hprev, hbefore⟩ :=
          hall (s :: before) t after (by rw [hsteps]; rfl) hdepends hseq
        rw [forall_mem_cons] at hbefore
        exact ⟨htarget, by rw [if_pos hbefore.1]; exact hprev, hbefore.2⟩

theorem sequenceSteps_eq_self : sequenceSteps steps = steps ↔ Sequenced steps := by
  rw [sequenceSteps, sequenceFrom_eq_self, Sequenced]
  constructor
  · intro hall before s after hsteps hdepends hseq
    obtain ⟨htarget, -, hbefore⟩ := hall before s after hsteps hdepends hseq
    exact ⟨htarget, hbefore⟩
  · intro hall before s after hsteps hdepends hseq
    obtain ⟨htarget, hbefore⟩ := hall before s after hsteps hdepends hseq
    exact ⟨htarget, rfl, hbefore⟩

theorem anyV2Steps_sequenceFrom (prevID : String) (steps : List AuthoredStep) :
    anyV2Steps (sequenceFrom splitOf prevID steps) = anyV2Steps steps := by
  induction steps generalizing prevID with
  | nil => rfl
  | cons s steps ih =>
    rw [sequenceFrom, anyV2Steps, anyV2Steps, ih, anyV2Step_eq, anyV2Step_eq]
    congr 1
    split <;> rfl

end Sequencing

/-- Steps of which only the first has no edge, and no split with a target after it. -/
theorem Sequenced.of_edges (hsplits : splitTargets steps = [])
    (hedges : ∀ s ∈ steps.tail, ¬(s.dependsOn = [] ∧ s.seqDependsOn = [])) : Sequenced steps := by
  intro before s after hsteps hdepends hseq
  constructor
  · rw [splitFor, hsplits]
    rfl
  · cases before with
    | nil => simp
    | cons =>
      have hmem : s ∈ steps.tail := by rw [hsteps]; simp
      exact absurd ⟨hdepends, hseq⟩ (hedges s hmem)

/-! ## What the pass emits -/

/-- A step that the pass has emitted after the step `prevID`. -/
structure Emitted (prevID : String) (e : AuthoredStep) : Prop where
  forEach : e.forEachExpr = ""
  typed : e.isTyped = true → prevID ≠ "" → e.dependsOn = [] → e.seqDependsOn ≠ []
  leaf : e.isTyped = false → e.subSteps = [] ∧ e.parallelSteps = [] ∧ e.ifExpr = "" ∧
    e.rejectWhen = "" ∧ e.onReject = none ∧ e.output = none ∧ e.max = 0
  edge : e.isTyped = false → prevID ≠ "" → e.dependsOn = [] → e.seqDependsOn = [prevID]

def EmittedFrom : String → List AuthoredStep → Prop
  | _, [] => True
  | prevID, e :: steps => Emitted prevID e ∧ EmittedFrom e.id steps

def lastID (prevID : String) (steps : List AuthoredStep) : String :=
  (steps.getLast?.map fun e => e.id).getD prevID

section Emission

variable {ctx : LowerCtx}

theorem EmittedFrom.append {more : List AuthoredStep} (hsteps : EmittedFrom prevID steps)
    (hmore : EmittedFrom (lastID prevID steps) more) : EmittedFrom prevID (steps ++ more) := by
  induction steps generalizing prevID with
  | nil => exact hmore
  | cons e steps ih =>
    refine ⟨hsteps.1, ih hsteps.2 ?_⟩
    cases steps with
    | nil => exact hmore
    | cons =>
      rw [lastID, getLast?_cons_cons] at hmore
      rw [lastID]
      rw [getLast?_cons] at hmore ⊢
      exact hmore

theorem emitted_leaf (s : AuthoredStep) (prevID inherited : String) (hforEach : s.forEachExpr = "")
    (htyped : s.isTyped = false) (hparallel : s.parallelSteps = []) (hgroup : s.subSteps = []) :
    Emitted prevID (ctx.lowerLeafStep s prevID inherited).1 where
  forEach := hforEach
  typed h := nomatch h.symm.trans htyped
  leaf _ := ⟨hgroup, hparallel, rfl, rfl, rfl, rfl, rfl⟩
  edge _ hprev hdepends := by
    have hdepends : s.dependsOn = [] := hdepends
    exact if_pos (by simp [hprev, hdepends])

/-- A node that is built anew. -/
theorem emitted_node (hforEach : e.forEachExpr = "") (htyped : e.isTyped = true)
    (hedge : e.seqDependsOn = if prevID = "" then [] else [prevID]) : Emitted prevID e where
  forEach := hforEach
  typed _ hprev _ := by simp [hedge, hprev]
  leaf h := nomatch h.symm.trans htyped
  edge h := nomatch h.symm.trans htyped

theorem emitted_parallel {node : AuthoredStep} {inherited : String}
    (hnode : ctx.lowerParallelStep s prevID inherited = .ok (node, writes)) :
    Emitted prevID node := by
  rw [lowerParallelStep] at hnode
  split_ifs at hnode
  cases hnode
  exact emitted_node rfl rfl rfl

theorem emitted_typed (prevID : String) (hforEach : s.forEachExpr = "") (htyped : s.isTyped = true) :
    Emitted prevID (passTyped s prevID) := by
  rw [passTyped]
  split_ifs with hedges
  · exact ⟨hforEach, by simp, fun h => (nomatch h.symm.trans htyped),
      fun h => (nomatch h.symm.trans htyped)⟩
  · refine ⟨hforEach, fun _ hprev hdepends hseq => hedges ?_,
      fun h => (nomatch h.symm.trans htyped),
      fun h => (nomatch h.symm.trans htyped)⟩
    simp [hprev, hdepends, hseq]

mutual

/-- Lowering emits a run of steps, each with an edge to the one before. -/
theorem lowerStep_emitted : ∀ (s : AuthoredStep) (prevID inherited : String)
    {emitted : List AuthoredStep} {writes : Writes},
    lowerStep ctx s prevID inherited = .ok (emitted, writes) → EmittedFrom prevID emitted
  | ⟨fields, subSteps, parallelSteps, step⟩, prevID, inherited, emitted, writes, hlower => by
      cases lowerStep_cases hlower with
      | forEach => exact ⟨emitted_node rfl rfl rfl, trivial⟩
      | typed hforEach htyped => exact ⟨emitted_typed prevID hforEach htyped, trivial⟩
      | parallel hforEach htyped hparallel node writes hnode =>
        exact ⟨emitted_parallel hnode, trivial⟩
      | group hforEach htyped hparallel hgroup children writes hchildren =>
        exact lowerSteps_emitted subSteps prevID _ hchildren
      | leaf hforEach htyped hparallel hgroup =>
        exact ⟨emitted_leaf _ prevID inherited hforEach htyped hparallel hgroup, trivial⟩

theorem lowerSteps_emitted : ∀ (steps : List AuthoredStep) (prevID inherited : String)
    {emitted : List AuthoredStep} {writes : Writes},
    lowerSteps ctx steps prevID inherited = .ok (emitted, writes) → EmittedFrom prevID emitted
  | [], prevID, inherited, emitted, writes, hlower => by
      cases hlower
      trivial
  | s :: steps, prevID, inherited, emitted, writes, hlower => by
      obtain ⟨first, writes₁, rest, writes₂, hfirst, hrest, rfl, rfl⟩ := lowerSteps_cons.mp hlower
      exact (lowerStep_emitted s prevID inherited hfirst).append
        (lowerSteps_emitted steps _ inherited hrest)

end

end Emission

/-! ## Recorded fields -/

mutual

/-- Every step that recorded fields are added to. -/
def allStepsOf : AuthoredStep → List AuthoredStep
  | ⟨fields, subSteps, parallelSteps, step⟩ =>
    ⟨fields, subSteps, parallelSteps, step⟩ ::
      (allSteps subSteps ++ allSteps parallelSteps ++ allStepsOfBody step)

def allSteps : List AuthoredStep → List AuthoredStep
  | [] => []
  | s :: steps => allStepsOf s ++ allSteps steps

def allStepsOfBody : Option AuthoredStep → List AuthoredStep
  | none => []
  | some s => allStepsOf s

end

/-- The recorded fields of a step are among those it persists. -/
def Persists (writes : Writes) (s : AuthoredStep) : Prop :=
  ∀ field, (s.id, field) ∈ writes → field ∈ s.memoryWrite

section Fields

variable {writes : Writes}

theorem addWrites_extends (writes : Writes) (id : String) (fields : List String) :
    fields <+: addWrites writes id fields := by
  induction writes generalizing fields with
  | nil => exact prefix_rfl
  | cons write writes ih =>
    rw [addWrites, foldl_cons, ← addWrites]
    split
    · exact (prefix_append fields _).trans (ih _)
    · exact ih fields

/-- No field is added exactly when every pending write is there. -/
theorem addWrites_eq_self {id : String} {fields : List String} :
    addWrites writes id fields = fields ↔ ∀ field, (id, field) ∈ writes → field ∈ fields := by
  induction writes with
  | nil => simp [addWrites]
  | cons write writes ih =>
    rw [addWrites, foldl_cons, ← addWrites]
    split
    · rename_i hnew
      rw [Bool.and_eq_true, decide_eq_true_eq, decide_eq_true_eq] at hnew
      constructor
      · intro heq
        have hlength := (addWrites_extends writes id (fields ++ [write.2])).length_le
        rw [heq, length_append, length_singleton] at hlength
        omega
      · intro hall
        exact absurd (hall write.2 (by rw [← hnew.1]; exact mem_cons_self)) hnew.2
    · rename_i hold
      rw [Bool.and_eq_true, decide_eq_true_eq, decide_eq_true_eq, not_and, not_not] at hold
      rw [ih]
      constructor
      · intro hall field hfield
        rcases mem_cons.mp hfield with heq | hfield
        · rw [← heq] at hold
          exact hold rfl
        · exact hall field hfield
      · exact fun hall field hfield => hall field (mem_cons_of_mem _ hfield)

mutual

theorem applyPendingWritesToStep_eq_self : ∀ s : AuthoredStep,
    applyPendingWritesToStep writes s = s ↔ ∀ t ∈ allStepsOf s, Persists writes t
  | ⟨fields, subSteps, parallelSteps, step⟩ => by
      rw [applyPendingWritesToStep, allStepsOf, AuthoredStep.mk.injEq,
        applyPendingWrites_eq_self subSteps, applyPendingWrites_eq_self parallelSteps,
        applyPendingWritesToBody_eq_self step, forall_mem_cons, forall_mem_append,
        forall_mem_append, and_assoc]
      refine and_congr_left fun _ => ?_
      rw [Persists, ← addWrites_eq_self]
      constructor
      · exact fun heq => congrArg StepFields.memoryWrite heq
      · intro heq
        rw [heq]

/-- The pending writes change nothing exactly when every step persists them. -/
theorem applyPendingWrites_eq_self : ∀ steps : List AuthoredStep,
    applyPendingWrites writes steps = steps ↔ ∀ t ∈ allSteps steps, Persists writes t
  | [] => by simp [applyPendingWrites, allSteps]
  | s :: steps => by
      rw [applyPendingWrites, allSteps, List.cons.injEq, applyPendingWritesToStep_eq_self s,
        applyPendingWrites_eq_self steps, forall_mem_append]

theorem applyPendingWritesToBody_eq_self : ∀ step : Option AuthoredStep,
    applyPendingWritesToBody writes step = step ↔ ∀ t ∈ allStepsOfBody step, Persists writes t
  | none => by simp [applyPendingWritesToBody, allStepsOfBody]
  | some s => by
      rw [applyPendingWritesToBody, allStepsOfBody, Option.some.injEq,
        applyPendingWritesToStep_eq_self s]

end

theorem applyPendingWrites_eq_map (steps : List AuthoredStep) :
    applyPendingWrites writes steps = steps.map (applyPendingWritesToStep writes) := by
  induction steps with
  | nil => rfl
  | cons s steps ih => rw [applyPendingWrites, ih, map_cons]

/-- Of a step's own fields only those it persists change. -/
theorem applyPendingWritesToStep_fields (s : AuthoredStep) :
    (applyPendingWritesToStep writes s).toStepFields =
      { s.toStepFields with memoryWrite := addWrites writes s.id s.memoryWrite } := by
  cases s
  rfl

theorem Emitted.applied (he : Emitted prevID e) :
    Emitted prevID (applyPendingWritesToStep writes e) := by
  obtain ⟨fields, subSteps, parallelSteps, step⟩ := e
  refine ⟨he.forEach, he.typed, ?_, he.edge⟩
  intro htyped
  obtain ⟨hsub, hparallel, hrest⟩ := he.leaf htyped
  obtain rfl : subSteps = [] := hsub
  obtain rfl : parallelSteps = [] := hparallel
  exact ⟨rfl, rfl, hrest⟩

theorem EmittedFrom.applied (hsteps : EmittedFrom prevID steps) :
    EmittedFrom prevID (applyPendingWrites writes steps) := by
  induction steps generalizing prevID with
  | nil => trivial
  | cons e steps ih =>
    have hid : (applyPendingWritesToStep writes e).id = e.id := by
      rw [applyPendingWritesToStep_fields]
    exact ⟨hsteps.1.applied, hid ▸ ih hsteps.2⟩

end Fields

/-! ## The second pass -/

/-- What lowering does to a step it has emitted: it has no `if:` to take a guard from. -/
def dropGuard (e : AuthoredStep) : AuthoredStep :=
  if e.isTyped then e else { e with condition := "" }

/-- The fields that lowering records for a step it has emitted. -/
def gateWrites (ctx : LowerCtx) (e : AuthoredStep) : Writes :=
  if e.isTyped then [] else ctx.ensureMemoryWriteForExpr e.failWhen

section Again

variable {ctx : LowerCtx}

theorem lowerLeafStep_emitted (he : Emitted prevID e) (hleaf : e.isTyped = false) :
    ctx.lowerLeafStep e prevID "" = (dropGuard e, gateWrites ctx e) := by
  obtain ⟨hsub, hparallel, hif, hreject, honReject, houtput, hmax⟩ := he.leaf hleaf
  have hedge : (if (prevID ≠ "" && e.dependsOn = []) = true then [prevID] else e.seqDependsOn) =
      e.seqDependsOn := by
    split_ifs with hprev
    · rw [Bool.and_eq_true, decide_eq_true_eq, decide_eq_true_eq] at hprev
      exact (he.edge hleaf hprev.1 hprev.2).symm
    · rfl
  have hexpr : ctx.rewriteExpr "" = ("", []) := rfl
  have hcompose : composeCond "" "" = "" := rfl
  have hnothing : ctx.ensureMemoryWriteForExpr "" = [] := rfl
  rw [lowerLeafStep, hif, hexpr, lowerGate, if_pos hreject]
  dsimp only
  rw [hcompose, hedge, autoWireMemory, hnothing, dropGuard, gateWrites, hleaf]
  simp only [honReject, houtput, hmax, rejectRoute, Option.or_none, nil_append,
    lt_irrefl, decide_false, Bool.false_and, Bool.false_eq_true, if_false, Prod.mk.injEq, and_true]
  cases e
  simp_all

/-- An emitted step is lowered to itself but for its guard. -/
theorem lowerStep_emitted_again (he : Emitted prevID e) :
    lowerStep ctx e prevID "" = .ok ([dropGuard e], gateWrites ctx e) := by
  by_cases htyped : e.isTyped = true
  · have hpass : passTyped e prevID = e := by
      rw [passTyped, if_neg]
      simp only [Bool.and_eq_true, decide_eq_true_eq, not_and]
      exact fun ⟨hprev, hdepends⟩ hseq => he.typed htyped hprev hdepends hseq
    have hforEach := he.forEach
    rw [dropGuard, gateWrites, if_pos htyped, if_pos htyped]
    obtain ⟨fields, subSteps, parallelSteps, step⟩ := e
    rw [lowerStep]
    dsimp only
    rw [if_neg (not_not.mpr hforEach), if_pos htyped, hpass]
  · have hleaf : e.isTyped = false := Bool.not_eq_true _ ▸ htyped
    obtain ⟨hsub, hparallel, -⟩ := he.leaf hleaf
    have hagain : ctx.lowerLeafStep e prevID "" = _ := lowerLeafStep_emitted he hleaf
    have hforEach := he.forEach
    obtain ⟨fields, subSteps, parallelSteps, step⟩ := e
    obtain rfl : subSteps = [] := hsub
    obtain rfl : parallelSteps = [] := hparallel
    rw [lowerStep]
    dsimp only
    rw [if_neg (not_not.mpr hforEach), if_neg htyped, hagain]
    rfl

theorem lowerSteps_emitted_again (hsteps : EmittedFrom prevID steps) :
    lowerSteps ctx steps prevID "" = .ok (steps.map dropGuard, steps.flatMap (gateWrites ctx)) := by
  induction steps generalizing prevID with
  | nil => rfl
  | cons e steps ih =>
    have hid : (dropGuard e).id = e.id := by
      rw [dropGuard]
      split <;> rfl
    rw [lowerSteps_cons]
    refine ⟨[dropGuard e], gateWrites ctx e, steps.map dropGuard, steps.flatMap (gateWrites ctx),
      lowerStep_emitted_again hsteps.1, ?_, rfl, rfl⟩
    simpa [hid] using ih hsteps.2

end Again

/-! ## Idempotence -/

/-- Nothing in the steps is lost to another pass: if a step still carries an authored
field, then no plain step has a guard, and every field that a gate reads is persisted by the
steps that emit it; otherwise only edges could be added, and none is missing. -/
def Settled (steps : List AuthoredStep) : Prop :=
  if anyV2Steps steps then
    (∀ e ∈ steps, e.isTyped = false → e.condition = "") ∧
      ∀ e ∈ steps, e.isTyped = false → ∀ field ∈ memoryFields e.failWhen,
        ∀ t ∈ allSteps steps, t.id ∈ emitters ⟨indexSteps steps⟩ field → field ∈ t.memoryWrite
  else Sequenced steps

section Idempotence

variable {ctx : LowerCtx} {steps : List AuthoredStep}

theorem map_eq_self {f : AuthoredStep → AuthoredStep} :
    steps.map f = steps ↔ ∀ e ∈ steps, f e = e := by
  calc steps.map f = steps
    _ ↔ steps.map f = steps.map id := by rw [map_id]
    _ ↔ ∀ e ∈ steps, f e = e := map_inj_left

/-- A second pass keeps the steps that are typed or have no guard. -/
theorem dropGuard_eq_self : dropGuard e = e ↔ (e.isTyped = false → e.condition = "") := by
  rw [dropGuard]
  constructor
  · intro heq hleaf
    rw [if_neg (by simp [hleaf])] at heq
    exact (congrArg (fun s : AuthoredStep => s.condition) heq).symm
  · intro hguard
    split_ifs with hleaf
    · rfl
    · have hguard := hguard (Bool.not_eq_true _ ▸ hleaf)
      cases e
      exact congrArg (AuthoredStep.mk · _ _ _) (by rw [← hguard])

theorem mem_gateWrites {id field : String} : (id, field) ∈ gateWrites ctx e ↔
      e.isTyped = false ∧ field ∈ memoryFields e.failWhen ∧ id ∈ ctx.emitters field := by
  rw [gateWrites]
  split
  · simp_all
  · simp_all [ensureMemoryWriteForExpr]

/-- Recording fields does not bring a lost guard back. -/
theorem applyPendingWrites_dropGuard_eq_self :
    applyPendingWrites writes (steps.map dropGuard) = steps ↔
      (∀ e ∈ steps, e.isTyped = false → e.condition = "") ∧
        ∀ t ∈ allSteps steps, Persists writes t := by
  rw [← applyPendingWrites_eq_self, applyPendingWrites_eq_map, applyPendingWrites_eq_map,
    map_map, map_eq_self, map_eq_self]
  have hdrop : ∀ e, applyPendingWritesToStep writes (dropGuard e) = e → dropGuard e = e := by
    intro e heq
    rw [dropGuard_eq_self]
    intro hleaf
    have hcondition := congrArg (fun s : AuthoredStep => s.condition) heq
    rw [applyPendingWritesToStep_fields, dropGuard, if_neg (by simp [hleaf])] at hcondition
    exact hcondition.symm
  constructor
  · intro heq
    have hsame : ∀ e ∈ steps, dropGuard e = e := fun e he => hdrop e (heq e he)
    refine ⟨fun e he => dropGuard_eq_self.mp (hsame e he), fun e he => ?_⟩
    have := heq e he
    rwa [Function.comp_apply, hsame e he] at this
  · rintro ⟨hguard, heq⟩ e he
    rw [Function.comp_apply, dropGuard_eq_self.mpr (hguard e he)]
    exact heq e he

theorem persists_gateWrites : (∀ t ∈ allSteps steps, Persists (steps.flatMap (gateWrites ctx)) t) ↔
      ∀ e ∈ steps, e.isTyped = false → ∀ field ∈ memoryFields e.failWhen,
        ∀ t ∈ allSteps steps, t.id ∈ ctx.emitters field → field ∈ t.memoryWrite := by
  simp only [Persists, mem_flatMap, mem_gateWrites]
  constructor
  · intro hall e he hleaf field hfield t ht hid
    exact hall t ht field ⟨e, he, hleaf, hfield, hid⟩
  · rintro hall t ht field ⟨e, he, hleaf, hfield, hid⟩
    exact hall e he hleaf field hfield t ht hid

theorem lowerV2Workflow_authored {wf : AuthoredWorkflow} (hv2 : anyV2Steps wf.steps = true)
    (hlower : lowerV2Workflow wf = .ok out) : EmittedFrom "" out.steps := by
  rw [lowerV2Workflow, if_pos hv2] at hlower
  split at hlower
  · cases hlower
  · rename_i hlowered
    cases hlower
    exact (lowerSteps_emitted wf.steps "" "" hlowered).applied

/-- A second lowering changes nothing exactly when the steps are settled. -/
theorem lowerV2Workflow_emitted (hout : EmittedFrom "" out.steps) :
    lowerV2Workflow out = .ok out ↔ Settled out.steps := by
  obtain ⟨id, steps⟩ := out
  rw [lowerV2Workflow, Settled]
  split
  · rw [lowerSteps_emitted_again hout]
    dsimp only
    rw [Except.ok.injEq, AuthoredWorkflow.mk.injEq, eq_self, true_and,
      applyPendingWrites_dropGuard_eq_self, persists_gateWrites]
  · rw [Except.ok.injEq, AuthoredWorkflow.mk.injEq, eq_self, true_and, sequenceSteps_eq_self]

end Idempotence

/-- Lowering what has been lowered succeeds and changes nothing exactly if the lowered
workflow is settled or there was nothing to lower in the first place. -/
theorem lowered_again_iff_settled (wf out : AuthoredWorkflow)
    (hlower : lowerV2Workflow wf = .ok out) :
    lowerV2Workflow out = .ok out ↔ (anyV2Steps wf.steps = true → Settled out.steps) := by
  by_cases hv2 : anyV2Steps wf.steps = true
  · rw [lowerV2Workflow_emitted (lowerV2Workflow_authored hv2 hlower)]
    exact ⟨fun hsettled _ => hsettled, fun hsettled => hsettled hv2⟩
  · refine ⟨fun _ h => absurd h hv2, fun _ => ?_⟩
    rw [lowerV2Workflow, if_neg hv2] at hlower
    cases hlower
    have hplain : anyV2Steps (sequenceSteps wf.steps) ≠ true := by
      rwa [sequenceSteps, anyV2Steps_sequenceFrom]
    rw [lowerV2Workflow, if_neg hplain, sequenceSteps_idem]

/-- A guarded group, a parallel step and a loop, all in the authored form. -/
def triageAndFix : AuthoredWorkflow where
  id := "triage-and-fix"
  steps :=
    [{ id := "triage", output := some ["verdict", "files"] },
      { id := "repair", ifExpr := "triage.verdict == 'bug'", subSteps :=
          [{ id := "fix", output := some ["ready"] },
            { id := "checks", rejectWhen := "not fix.ready",
              onReject := some { restartFrom := "fix", max := 2 },
              parallelSteps := [{ id := "lint" }, { id := "test" }] }] },
      { id := "report", forEachExpr := "$\x7b\x7b triage.files \x7d\x7d", asName := "file",
        subSteps := [{ id := "summarize" }] }]

theorem triageAndFix_lowered_again :
    ∃ out, lowerV2Workflow triageAndFix = .ok out ∧ Settled out.steps ∧
      lowerV2Workflow out = .ok out := by
  have hsettled : Settled ((lowerV2Workflow triageAndFix).toOption.get (by decide +kernel)).steps := by
    rw [Settled, if_neg (by decide +kernel)]
    exact Sequenced.of_edges (by decide +kernel) (by decide +kernel)
  exact ⟨_, ok_get _, hsettled,
    (lowered_again_iff_settled triageAndFix _ (ok_get _)).mpr fun _ => hsettled⟩

/-- A loop in the lowered form keeps an `if:` that was written on it, so lowering runs
again in full and erases the guard of the step before it. -/
def reviewFiles : AuthoredWorkflow where
  id := "review-files"
  steps :=
    [{ id := "triage", outputSchema := some ["verdict", "files"] },
      { id := "fix", ifExpr := "triage.verdict == 'bug'" },
      { id := "review", type := .foreach, items := "steps.triage.output.files", asName := "file",
        ifExpr := "triage.verdict == 'bug'", step := some { id := "review-file" } }]

theorem reviewFiles_guard_erased :
    ∃ once twice, lowerV2Workflow reviewFiles = .ok once ∧ lowerV2Workflow once = .ok twice ∧
      (once.steps.map fun s => s.condition) = ["", "memory.verdict == 'bug'", ""] ∧
      (twice.steps.map fun s => s.condition) = ["", "", ""] := by
  exact ⟨_, _, ok_get (by decide +kernel), ok_get (by decide +kernel), by decide +kernel,
    by decide +kernel⟩

end Apiary.Config
