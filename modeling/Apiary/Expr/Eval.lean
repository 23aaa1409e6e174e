import Apiary.Expr.Parser
import Apiary.Workflow.Run
import Mathlib.Data.List.Sort
import Mathlib.Data.Rat.Defs

/-!
# The meaning of condition expressions

An expression is evaluated against the source item, the event, the workflow
memory and the outcomes of earlier steps.  Regular expressions, floating point
literals and the rendering of memory values are taken as parameters.
-/

namespace Apiary.Expr

open Workflow

variable {ctx ctx' : EvalContext}

structure Ops where
  compileRegex : String → Except String (String → Bool)
  parseFloat : String → Option ℚ
  renderValue : Value → String

/-- The value of an accessor. -/
inductive Resolved where
  | string (s : String)
  | list (items : List String)
  | number (n : ℚ)
  | missing
  deriving DecidableEq

/-- The text of a value; only a string has one. -/
def Resolved.text : Resolved → String
  | .string s => s
  | _ => ""

def orMissing : Option String → Resolved
  | some s => .string s
  | none => .missing

def pathText (path : List String) : String := quote (".".intercalate path)

def resolveCell (cell : SourceItem) (field : String) : Except String Resolved :=
  if field = "labels" then .ok (.list cell.labels)
  else if field = "priority" then .ok (.string cell.priority)
  else if field = "type" then .ok (.string cell.type)
  else if field = "title" then .ok (.string cell.title)
  else if field = "source" then .ok (.string cell.sourceID)
  else if field = "state" then .ok (.string cell.state)
  else .error ("unknown cell field " ++ quote field)

def eventFields : List String :=
  ["kind", "body", "author", "author_association", "pr_number", "pr_url", "pr_author"]

def resolveEvent (event : String → Option String) (field : String) : Except String Resolved :=
  if field ∈ eventFields then .ok (orMissing (event field))
  else .error ("unknown event field " ++ quote field)

def statusText : Status → String
  | .pending => "pending"
  | .running => "running"
  | .passed => "passed"
  | .failed => "failed"
  | .skipped => "skipped"
  | .condSkipped => "cond_skipped"
  | .waiting => "waiting"

def resolveStep (steps : String → Option StepState) (id field : String) : Except String Resolved :=
  match steps id with
  | none => .ok .missing
  | some st =>
    if field = "state" then .ok (.string (statusText st.state))
    else if field = "output" then .ok (.string st.output)
    else if field = "exit_code" then .ok (.number st.exitCode)
    else .error ("unknown step field " ++ quote field)

/-- A parsed path is never empty. -/
def resolveAccessor (path : List String) (ctx : EvalContext) : Except String Resolved :=
  match path with
  | [] => .error "empty accessor"
  | root :: fields =>
    if root = "cell" then
      match fields with
      | [field] => resolveCell ctx.cell field
      | _ => .error ("invalid cell accessor " ++ pathText path)
    else if root = "event" then
      match fields with
      | [field] => resolveEvent ctx.event field
      | _ => .error ("invalid event accessor " ++ pathText path)
    else if root = "memory" then
      match fields with
      | [key] => .ok (orMissing (ctx.memory key))
      | _ => .error ("invalid memory accessor " ++ pathText path)
    else if root = "steps" then
      match fields with
      | [id, field] => resolveStep ctx.steps id field
      | _ => .error ("invalid steps accessor " ++ pathText path ++ " (want steps.<id>.<field>)")
    else .error ("unknown accessor root " ++ quote root ++ " (want cell, memory, steps, or event)")

variable (ops : Ops)

/-- A number is compared as one with a number operand only. -/
def equals (v : Resolved) (n : Comparison) : Except String Bool :=
  match v with
  | .list _ => .error ("'" ++ n.op.text ++ "' is not supported on list " ++ pathText n.path ++
      " (use 'contains')")
  | .number m =>
    if n.isNumber then
      match ops.parseFloat n.operand with
      | none => .error ("invalid number operand " ++ quote n.operand)
      | some want => .ok (m = want)
    else .ok (v.text = n.operand)
  | _ => .ok (v.text = n.operand)

def isInfixOf (needle : List Char) : List Char → Bool
  | [] => needle.isEmpty
  | c :: cs => needle.isPrefixOf (c :: cs) || isInfixOf needle cs

def compare (v : Resolved) (n : Comparison) : Except String Bool :=
  match n.op with
  | .matches =>
    match v with
    | .list _ => .error ("'matches' is not supported on list " ++ pathText n.path)
    | _ =>
      match ops.compileRegex n.operand with
      | .error err => .error ("invalid regex " ++ quote n.operand ++ ": " ++ err)
      | .ok matchString => .ok (matchString v.text)
  | .contains =>
    match v with
    | .list items => .ok (n.operand ∈ items)
    | .string s => .ok (isInfixOf n.operand.toList s.toList)
    | _ => .error ("'contains' is not supported on " ++ pathText n.path)
  | .eq => equals ops v n
  | .neq => (equals ops v n).map not

/-- `and` and `or` evaluate their right side only when the left one leaves the
answer open. -/
def eval (ctx : EvalContext) : Node → Except String Bool
  | .or l r =>
    match eval ctx l with
    | .error err => .error err
    | .ok true => .ok true
    | .ok false => eval ctx r
  | .and l r =>
    match eval ctx l with
    | .error err => .error err
    | .ok true => eval ctx r
    | .ok false => .ok false
  | .not x =>
    match eval ctx x with
    | .error err => .error err
    | .ok v => .ok !v
  | .cmp n =>
    match resolveAccessor n.path ctx with
    | .error err => .error err
    | .ok v => compare ops v n

def collectMemoryRefs : Node → List String
  | .or l r => collectMemoryRefs l ++ collectMemoryRefs r
  | .and l r => collectMemoryRefs l ++ collectMemoryRefs r
  | .not x => collectMemoryRefs x
  | .cmp n =>
    match n.path with
    | [root, key] => if root = "memory" then [key] else []
    | _ => []

def memoryRefs (node : Node) : List String := (collectMemoryRefs node).dedup.insertionSort (· ≤ ·)

/-- The contexts agree on everything but the memory keys that are not listed. -/
structure AgreeOn (keys : List String) (ctx ctx' : EvalContext) : Prop where
  cell : ctx.cell = ctx'.cell
  steps : ctx.steps = ctx'.steps
  event : ctx.event = ctx'.event
  memory : ∀ key ∈ keys, ctx.memory key = ctx'.memory key

theorem AgreeOn.mono {keys more : List String} (hagree : AgreeOn more ctx ctx')
    (hkeys : ∀ key ∈ keys, key ∈ more) : AgreeOn keys ctx ctx' :=
  ⟨hagree.cell, hagree.steps, hagree.event, fun key hkey => hagree.memory key (hkeys key hkey)⟩

theorem resolveAccessor_congr {n : Comparison}
    (hagree : AgreeOn (collectMemoryRefs (.cmp n)) ctx ctx') :
    resolveAccessor n.path ctx = resolveAccessor n.path ctx' := by
  cases hpath : n.path with
  | nil => rfl
  | cons root fields =>
    simp only [resolveAccessor, hagree.cell, hagree.event, hagree.steps]
    by_cases hroot : root = "memory"
    · -- the one accessor that reads memory is the one that is collected
      match fields with
      | [] | _ :: _ :: _ => rfl
      | [key] =>
        have hkey := hagree.memory key (by simp [collectMemoryRefs, hpath, hroot])
        simp [hroot, hkey]
    · simp [hroot]

theorem eval_congr_collected {node : Node} (hagree : AgreeOn (collectMemoryRefs node) ctx ctx') :
    eval ops ctx node = eval ops ctx' node := by
  induction node with
  | or l r ihl ihr | and l r ihl ihr =>
    have hl := ihl (hagree.mono fun key hkey => List.mem_append_left _ hkey)
    have hr := ihr (hagree.mono fun key hkey => List.mem_append_right _ hkey)
    rw [eval, eval, hl, hr]
  | not x ih => rw [eval, eval, ih hagree]
  | cmp => rw [eval, eval, resolveAccessor_congr hagree]

/-- The memory that an expression can read is reported by `memoryRefs`. -/
theorem eval_congr_of_memoryRefs (node : Node) {ctx ctx' : EvalContext}
    (hagree : AgreeOn (memoryRefs node) ctx ctx') : eval ops ctx node = eval ops ctx' node := by
  apply eval_congr_collected
  apply hagree.mono
  intro key hkey
  rw [memoryRefs, List.mem_insertionSort, List.mem_dedup]
  exact hkey

/-- Operations for expressions without regular expressions and numbers over memory
values that are strings. -/
def textOps : Ops where
  compileRegex _ := .error "unsupported"
  parseFloat _ := none
  renderValue
    | .string s => s
    | _ => ""

def rejected : Node := .cmp { path := ["memory", "verdict"], op := .eq, operand := "reject" }

def rejectContext (notes : Option String) : EvalContext where
  cell := {}
  memory key := if key = "verdict" then some "reject" else if key = "notes" then notes else none
  steps _ := none
  event _ := none

/-- Notes in memory do not change how a verdict is compared. -/
theorem rejected_reads_verdict : rejectContext none ≠ rejectContext (some "late") ∧
      eval textOps (rejectContext none) rejected =
        eval textOps (rejectContext (some "late")) rejected := by
  constructor
  · intro hsame
    have hnotes := congrArg (fun ctx => ctx.memory "notes") hsame
    nomatch hnotes
  · apply eval_congr_of_memoryRefs
    refine ⟨rfl, rfl, rfl, ?_⟩
    intro key hkey
    obtain rfl : key = "verdict" := List.mem_singleton.mp hkey
    rfl

/-- The scheduler's expression language. -/
def engine (concurrency : ℕ) : Engine where
  Expr := Node
  parseExpr := parseExpr
  eval node ctx := eval ops ctx node
  memoryRefs := memoryRefs
  renderValue := ops.renderValue
  concurrency := concurrency

end Apiary.Expr
