import Apiary.Config.Authored
import Apiary.Config.Rewrite
import Apiary.Workflow.Gates

/-!
# Lowering

`LowerV2Workflow` turns the authored form (nested groups, `if:`, `reject_when:`,
`parallel:`, `for_each:`) into the flat steps the scheduler runs.  The fields that
a rewritten expression makes a step persist are collected in the order they are
found and added to the emitted steps at the end.
-/

namespace Apiary.Config

open Workflow

variable {ctx : LowerCtx} {s : AuthoredStep} {prevID inherited : String} {writes : Writes}

/-- Fields that steps have to persist, in the order they were found. -/
abbrev Writes := List (String × String)

/-! ## Expressions -/

/-- Strips the optional delimiters of an authored expression. -/
def lowerExpr (expr : String) : String := stripExprDelimiters expr

def composeCond (a b : String) : String :=
  let a := String.ofList (trimSpace a.toList)
  let b := String.ofList (trimSpace b.toList)
  if a = "" then b
  else if b = "" then a
  else "(" ++ a ++ ") and (" ++ b ++ ")"

/-- The steps of the authored tree. -/
structure LowerCtx where
  index : List AuthoredStep

namespace LowerCtx

variable (ctx : LowerCtx)

/-- The step a map filled in the order of the index holds. -/
def stepByID (id : String) : Option AuthoredStep :=
  if id = "" then none else ctx.index.reverse.find? fun s => s.id = id

def isStep (id : String) : Bool := (ctx.stepByID id).isSome

/-- The steps whose schema has the field. -/
def emitters (field : String) : List String :=
  (ctx.index.map fun s => s.id).dedup.filter fun id =>
    (ctx.stepByID id).any fun s => (s.outputSchema.or s.output).any fun fields => field ∈ fields

def rewriteExpr (expr : String) : String × Writes :=
  (rewriteStepRefs ctx.isStep (lowerExpr expr), stepRefs ctx.isStep (lowerExpr expr))

end LowerCtx

/-- The fields an expression reads from `memory`.  The scan goes on right after the first
word, so a field is looked at again as a first word. -/
def memoryFieldsFrom : ℕ → List Char → List String
  | 0, _ => []
  | _ + 1, [] => []
  | fuel + 1, c :: cs =>
    if isIdentRune c then
      let rest := cs.dropWhile isIdentRune
      let field := rest.tail.takeWhile isIdentRune
      (if c :: cs.takeWhile isIdentRune = memoryWord && rest.head? = some '.' && field ≠ [] then
          [String.ofList field] else []) ++ memoryFieldsFrom fuel rest
    else memoryFieldsFrom fuel cs

def memoryFields (expr : String) : List String := memoryFieldsFrom expr.toList.length expr.toList

namespace LowerCtx

variable (ctx : LowerCtx)

def ensureMemoryWriteForExpr (expr : String) : Writes :=
  (memoryFields expr).flatMap fun field => (ctx.emitters field).map fun id => (id, field)

def autoWireMemory (condition failWhen : String) : Writes :=
  ctx.ensureMemoryWriteForExpr condition ++ ctx.ensureMemoryWriteForExpr failWhen

/-! ## The shapes of a step -/

/-- `on_reject` takes the place of the route of `on_fail`. -/
def rejectRoute (onFail : Option StepOutcome) (onReject : Option OnRejectConfig) :
    Option StepOutcome :=
  match onReject with
  | none => onFail
  | some reject => some { goto := reject.restartFrom, maxRetries := reject.max }

/-- The gate of a step and the fields it reads. -/
def lowerGate (s : AuthoredStep) : String × Writes :=
  if s.rejectWhen = "" then (s.failWhen, []) else ctx.rewriteExpr s.rejectWhen

def lowerLeafStep (s : AuthoredStep) (prevID inherited : String) : AuthoredStep × Writes :=
  let own := ctx.rewriteExpr s.ifExpr
  let condition := composeCond inherited own.1
  let gate := ctx.lowerGate s
  ({ s with
     seqDependsOn := if prevID ≠ "" && s.dependsOn = [] then [prevID] else s.seqDependsOn
     outputSchema := s.outputSchema.or s.output
     output := none
     condition := condition
     ifExpr := ""
     failWhen := gate.1
     rejectWhen := ""
     onFail := rejectRoute s.onFail s.onReject
     onReject := none
     maxItems := if 0 < s.max && s.maxItems = 0 then s.max else s.maxItems
     max := 0 },
    own.2 ++ gate.2 ++ ctx.autoWireMemory condition gate.1)

/-- What a parallel node and a foreach node have in common: a new step with the guard,
the gate and the edge of the authored one. -/
def lowerNode (s : AuthoredStep) (prevID inherited : String) : AuthoredStep × Writes :=
  let own := ctx.rewriteExpr s.ifExpr
  let condition := composeCond inherited own.1
  let gate := ctx.lowerGate s
  ({ id := s.id, name := s.name
     seqDependsOn := if prevID = "" then [] else [prevID]
     condition := condition
     failWhen := gate.1
     onFail := rejectRoute s.onFail s.onReject },
    own.2 ++ gate.2 ++ ctx.autoWireMemory condition gate.1)

def lowerParallelStep (s : AuthoredStep) (prevID inherited : String) :
    Except String (AuthoredStep × Writes) :=
  if s.id = "" then .error "parallel step missing required id"
  else
    let node := ctx.lowerNode s prevID inherited
    let children := s.parallelSteps.map fun child => ctx.lowerLeafStep child "" ""
    .ok ({ node.1 with type := .parallel, join := s.join, subSteps := children.map Prod.fst },
      node.2 ++ children.flatMap Prod.snd)

end LowerCtx

/-- The text before the first dot and after it. -/
def splitDot (s : List Char) : Option (List Char × List Char) :=
  if '.' ∈ s then some (s.takeWhile (· ≠ '.'), (s.dropWhile (· ≠ '.')).tail) else none

/-- The items path of a `for_each:` expression, and the step and field it names. -/
def parseForEachExpr (expr : String) : String × String × String :=
  let s := (lowerExpr expr).toList
  let path (step field : List Char) : String × String × String :=
    ("steps." ++ String.ofList step ++ ".output." ++ String.ofList field,
      String.ofList step, String.ofList field)
  let short := if "steps.".toList.isPrefixOf s || "memory.".toList.isPrefixOf s then none
    else splitDot s
  match short with
  | some (step, field) => path step field
  | none =>
    let full := do
      let (root, s) ← splitDot s
      let (step, s) ← splitDot s
      let (output, field) ← splitDot s
      if root = "steps".toList && (output = "output".toList || output = "outputs".toList) then
        some (step, field)
      else none
    match full with
    | some (step, field) => path step field
    | none => (String.ofList s, "", "")

/-- A foreach node without its body. -/
def LowerCtx.lowerForeachNode (ctx : LowerCtx) (s : AuthoredStep) (prevID inherited : String) :
    AuthoredStep × Writes :=
  let node := ctx.lowerNode s prevID inherited
  let target := parseForEachExpr s.forEachExpr
  ({ node.1 with
     type := .foreach
     asName := s.asName
     concurrency := s.concurrency
     failFast := s.failFast
     maxItems := if 0 < s.max then s.max else s.maxItems
     items := target.1 },
    node.2 ++ if target.2.2 ≠ "" && ctx.isStep target.2.1 then [target.2] else [])

/-- A lowered node that is met again keeps everything but a missing edge. -/
def passTyped (s : AuthoredStep) (prevID : String) : AuthoredStep :=
  if prevID ≠ "" && s.dependsOn = [] && s.seqDependsOn = [] then
    { s with seqDependsOn := [prevID] }
  else s

/-! ## The pass -/

mutual

/-- The steps an authored step is lowered to: one, or those of a group. -/
def lowerStep (ctx : LowerCtx) : AuthoredStep → String → String →
    Except String (List AuthoredStep × Writes)
  | ⟨fields, subSteps, parallelSteps, step⟩, prevID, inherited =>
    let s : AuthoredStep := ⟨fields, subSteps, parallelSteps, step⟩
    if s.forEachExpr ≠ "" then
      if s.id = "" then .error "for_each step missing required id"
      else
        let node := ctx.lowerForeachNode s prevID inherited
        match subSteps with
        | [] => .ok ([node.1], node.2)
        | [body] =>
          let inner := ctx.lowerLeafStep body "" ""
          .ok ([{ node.1 with step := some inner.1 }], node.2 ++ inner.2)
        | _ :: _ :: _ =>
          -- a body of several steps is wrapped in a workflow of its own
          match lowerSteps ctx subSteps "" "" with
          | .error err => .error ("for_each " ++ quote s.id ++ " body: " ++ err)
          | .ok (inner, writes) =>
            let anon : AuthoredStep :=
              { id := s.id ++ "-body", type := .workflow, subSteps := inner }
            .ok ([{ node.1 with step := some anon }], node.2 ++ writes)
    else if s.isTyped then .ok ([passTyped s prevID], [])
    else if !parallelSteps.isEmpty then
      match ctx.lowerParallelStep s prevID inherited with
      | .error err => .error err
      | .ok (node, writes) => .ok ([node], writes)
    else if !subSteps.isEmpty then
      let own := ctx.rewriteExpr s.ifExpr
      match lowerSteps ctx subSteps prevID (composeCond inherited own.1) with
      | .error err => .error err
      | .ok (children, writes) => .ok (children, own.2 ++ writes)
    else
      let leaf := ctx.lowerLeafStep s prevID inherited
      .ok ([leaf.1], leaf.2)

def lowerSteps (ctx : LowerCtx) : List AuthoredStep → String → String →
    Except String (List AuthoredStep × Writes)
  | [], _, _ => .ok ([], [])
  | s :: steps, prevID, inherited =>
    match lowerStep ctx s prevID inherited with
    | .error err => .error err
    | .ok (emitted, writes) =>
      let lastID := (emitted.getLast?.map fun e => e.id).getD prevID
      match lowerSteps ctx steps lastID inherited with
      | .error err => .error err
      | .ok (rest, more) => .ok (emitted ++ rest, writes ++ more)

end

/-- The body of a foreach node. -/
inductive LowersBody (ctx : LowerCtx) (s : AuthoredStep) : Option AuthoredStep → Writes → Prop where
  | none (hbody : s.subSteps = []) : LowersBody ctx s none []
  | single (child : AuthoredStep) (hbody : s.subSteps = [child]) :
      LowersBody ctx s (some (ctx.lowerLeafStep child "" "").1) (ctx.lowerLeafStep child "" "").2
  | several (inner : List AuthoredStep) (writes : Writes) (hbody : 2 ≤ s.subSteps.length)
      (hinner : lowerSteps ctx s.subSteps "" "" = .ok (inner, writes)) :
      LowersBody ctx s
        (some { id := s.id ++ "-body", type := .workflow, subSteps := inner }) writes

/-- What a step can be lowered to. -/
inductive LowersTo (ctx : LowerCtx) (s : AuthoredStep) (prevID inherited : String) :
    List AuthoredStep → Writes → Prop where
  | forEach (hforEach : s.forEachExpr ≠ "") (hid : s.id ≠ "") (body : Option AuthoredStep)
      (more : Writes) (hbody : LowersBody ctx s body more) :
      LowersTo ctx s prevID inherited
        [{ (ctx.lowerForeachNode s prevID inherited).1 with step := body }]
        ((ctx.lowerForeachNode s prevID inherited).2 ++ more)
  | typed (hforEach : s.forEachExpr = "") (htyped : s.isTyped = true) :
      LowersTo ctx s prevID inherited [passTyped s prevID] []
  | parallel (hforEach : s.forEachExpr = "") (htyped : s.isTyped = false)
      (hparallel : s.parallelSteps ≠ []) (node : AuthoredStep) (writes : Writes)
      (hnode : ctx.lowerParallelStep s prevID inherited = .ok (node, writes)) :
      LowersTo ctx s prevID inherited [node] writes
  | group (hforEach : s.forEachExpr = "") (htyped : s.isTyped = false)
      (hparallel : s.parallelSteps = []) (hgroup : s.subSteps ≠ []) (children : List AuthoredStep)
      (writes : Writes)
      (hchildren : lowerSteps ctx s.subSteps prevID
        (composeCond inherited (ctx.rewriteExpr s.ifExpr).1) = .ok (children, writes)) :
      LowersTo ctx s prevID inherited children ((ctx.rewriteExpr s.ifExpr).2 ++ writes)
  | leaf (hforEach : s.forEachExpr = "") (htyped : s.isTyped = false)
      (hparallel : s.parallelSteps = []) (hgroup : s.subSteps = []) :
      LowersTo ctx s prevID inherited [(ctx.lowerLeafStep s prevID inherited).1]
        (ctx.lowerLeafStep s prevID inherited).2

theorem lowerStep_cases {emitted : List AuthoredStep}
    (hlower : lowerStep ctx s prevID inherited = .ok (emitted, writes)) :
    LowersTo ctx s prevID inherited emitted writes := by
  obtain ⟨fields, subSteps, parallelSteps, step⟩ := s
  rw [lowerStep] at hlower
  dsimp only at hlower
  split at hlower
  · rename_i hforEach
    split at hlower
    · cases hlower
    · rename_i hid
      split at hlower
      · cases hlower
        have hnone : LowersTo ctx ⟨fields, [], parallelSteps, step⟩ prevID inherited _ _ :=
          .forEach hforEach hid none [] (.none rfl)
        rwa [List.append_nil] at hnone
      · cases hlower
        exact .forEach hforEach hid _ _ (.single _ rfl)
      · split at hlower
        · cases hlower
        · rename_i inner writes' hinner
          cases hlower
          exact .forEach hforEach hid _ _ (.several inner writes' (by simp) hinner)
  · rename_i hforEach
    have hforEach : fields.forEachExpr = "" := not_not.mp hforEach
    split at hlower
    · rename_i htyped
      cases hlower
      exact .typed hforEach htyped
    · rename_i htyped
      have htyped := Bool.not_eq_true _ ▸ htyped
      split at hlower
      · rename_i hparallel
        split at hlower
        · cases hlower
        · rename_i node writes' hnode
          cases hlower
          exact .parallel hforEach htyped (by simpa using hparallel) node writes hnode
      · rename_i hparallel
        have hparallel : parallelSteps = [] := by simpa using hparallel
        split at hlower
        · rename_i hgroup
          split at hlower
          · cases hlower
          · rename_i writes' hchildren
            cases hlower
            exact .group hforEach htyped hparallel (by simpa using hgroup) _ writes' hchildren
        · rename_i hgroup
          cases hlower
          exact .leaf hforEach htyped hparallel (by simpa using hgroup)

theorem lowerSteps_cons {steps : List AuthoredStep} {emitted : List AuthoredStep} :
    lowerSteps ctx (s :: steps) prevID inherited = .ok (emitted, writes) ↔
      ∃ first writes₁ rest writes₂, lowerStep ctx s prevID inherited = .ok (first, writes₁) ∧
        lowerSteps ctx steps ((first.getLast?.map fun e => e.id).getD prevID) inherited =
          .ok (rest, writes₂) ∧ emitted = first ++ rest ∧ writes = writes₁ ++ writes₂ := by
  rw [lowerSteps]
  constructor
  · intro hlower
    split at hlower
    · cases hlower
    · rename_i first writes₁ hfirst
      dsimp only at hlower
      split at hlower
      · cases hlower
      · rename_i rest writes₂ hrest
        cases hlower
        exact ⟨first, writes₁, rest, writes₂, hfirst, hrest, rfl, rfl⟩
  · rintro ⟨first, writes₁, rest, writes₂, hfirst, hrest, rfl, rfl⟩
    rw [hfirst]
    dsimp only
    rw [hrest]

/-- Adds the fields recorded for a step to those it persists. -/
def addWrites (writes : Writes) (id : String) (memoryWrite : List String) : List String :=
  writes.foldl
    (fun fields write => if write.1 = id && write.2 ∉ fields then fields ++ [write.2] else fields)
    memoryWrite

mutual

def applyPendingWritesToStep (writes : Writes) : AuthoredStep → AuthoredStep
  | ⟨fields, subSteps, parallelSteps, step⟩ =>
    ⟨{ fields with memoryWrite := addWrites writes fields.id fields.memoryWrite },
      applyPendingWrites writes subSteps, applyPendingWrites writes parallelSteps,
      applyPendingWritesToBody writes step⟩

def applyPendingWrites (writes : Writes) : List AuthoredStep → List AuthoredStep
  | [] => []
  | s :: steps => applyPendingWritesToStep writes s :: applyPendingWrites writes steps

def applyPendingWritesToBody (writes : Writes) : Option AuthoredStep → Option AuthoredStep
  | none => none
  | some s => some (applyPendingWritesToStep writes s)

end

/-- What a call that succeeds returns. -/
theorem ok_get {ε α : Type} {result : Except ε α} (hok : result.toOption.isSome = true) :
    result = .ok (result.toOption.get hok) := by
  cases result with
  | error => cases hok
  | ok => rfl

structure AuthoredWorkflow where
  id : String
  steps : List AuthoredStep

def lowerV2Workflow (wf : AuthoredWorkflow) : Except String AuthoredWorkflow :=
  if anyV2Steps wf.steps then
    match lowerSteps ⟨indexSteps wf.steps⟩ wf.steps "" "" with
    | .error err => .error ("workflow " ++ quote wf.id ++ ": " ++ err)
    | .ok (lowered, writes) => .ok { wf with steps := applyPendingWrites writes lowered }
  else .ok { wf with steps := sequenceSteps wf.steps }

end Apiary.Config
