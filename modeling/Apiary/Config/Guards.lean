import Apiary.Config.Relowering
import Apiary.Expr.Conjunction
import Mathlib.Data.List.DropRight

/-!
# What lowering keeps of an authored step

Every step of a lowered workflow comes from an authored one: `origins` lists where
the steps of the output come from, with the `if:` of the groups that were dissolved
around them.  The guard of an emitted step should be the conjunction of those, of the
step's own `if:` and of its own `condition:`, and its edges and gates should still be
there.  Each shape of step keeps some of this and loses the rest.
-/

namespace Apiary.Config

open Workflow Apiary.Expr List AuthoredStep LowerCtx

variable {prevID : String} {s : AuthoredStep}

/-! ## Guards -/

section Trimming

theorem trimSpace_eq (s : List Char) : trimSpace s = (s.dropWhile isSpace).rdropWhile isSpace := rfl

theorem trimSpace_eq_self {s : List Char} (hfirst : s.dropWhile isSpace = s)
    (hlast : s.rdropWhile isSpace = s) : trimSpace s = s := by
  rw [trimSpace_eq, hfirst, hlast]

theorem trimSpace_trimSpace (s : List Char) : trimSpace (trimSpace s) = trimSpace s := by
  apply trimSpace_eq_self
  · obtain ⟨tail, htail⟩ := rdropWhile_prefix isSpace (l := s.dropWhile isSpace)
    rw [← trimSpace_eq] at htail
    -- the first character is still the one that trimming at the front left there
    cases hs : trimSpace s with
    | nil => rfl
    | cons c cs =>
      have hfirst : (s.dropWhile isSpace).dropWhile isSpace = s.dropWhile isSpace :=
        dropWhile_idempotent isSpace _
      rw [← htail, hs, cons_append, dropWhile_cons] at hfirst
      rw [dropWhile_cons]
      split_ifs at hfirst with hc
      · have hlength := congrArg List.length hfirst
        have hshorter := (dropWhile_sublist isSpace (l := cs ++ tail)).length_le
        rw [length_cons] at hlength
        omega
      · rw [if_neg hc]
  · exact rdropWhile_idempotent isSpace _

theorem trimmed_toList (text : String) : (trimmed text).toList = trimSpace text.toList :=
  String.toList_ofList

theorem trimmed_trimmed (text : String) : trimmed (trimmed text) = trimmed text := by
  rw [trimmed, trimmed, String.toList_ofList, trimSpace_trimSpace]

theorem composeCond_eq (a b : String) :
    composeCond a b = if trimmed a = "" then trimmed b else if trimmed b = "" then trimmed a
      else conjunction (trimmed a) (trimmed b) := rfl

theorem trimmed_conjunction (a b : String) : trimmed (conjunction a b) = conjunction a b := by
  rw [trimmed, conjunction_toList, trimSpace_eq_self, ← conjunction_toList, String.ofList_toList]
  · rfl
  · rw [rdropWhile_eq_self_iff]
    intro hne
    simp
    decide

end Trimming

variable (ops : Ops)

/-- The scheduler runs a step whose condition is this text. -/
def Passes (text : String) (ctx : EvalContext) : Prop :=
  text = "" ∨ evalExpr (engine ops 1) text ctx = .ok true

/-- The text is blank or an expression. -/
def isExpr (text : String) : Bool := text = "" || (parseExpr text).toOption.isSome

/-- The expression holds; a blank text always does. -/
def Holds (text : String) (ctx : EvalContext) : Prop :=
  text = "" ∨ ∃ node, parseExpr text = .ok node ∧ eval ops ctx node = .ok true

/-- The text is a guard that passes where `P` holds. -/
structure Means (text : String) (P : EvalContext → Prop) : Prop where
  trimmed_eq : trimmed text = text
  blank : text = "" → ∀ ctx, P ctx
  parsed : text ≠ "" → ∃ node, parseExpr text = .ok node ∧ ∀ ctx, eval ops ctx node = .ok true ↔ P ctx

section Meaning

variable {ops} {P Q : EvalContext → Prop} {a b text : String}

/-- A dollar sign starts no token. -/
theorem not_opening_of_lexes {source after : List Char} {segments : List Segment}
    (hlexes : Lexes (source ++ after) segments) :
    "$\x7b\x7b".toList.isPrefixOf source = false := by
  cases source with
  | nil => rfl
  | cons c =>
    cases hlexes with
    | cons hscan =>
      by_cases hc : c = '$'
      · subst hc
        cases hscan
      · have hfirst : ('$' == c) = false := beq_eq_false_iff_ne.mpr (Ne.symm hc)
        change ('$' == c && _) = false
        rw [hfirst, Bool.false_and]

theorem parseExpr_no_delimiter {node : Node} (hparse : parseExpr text = .ok node) :
    "$\x7b\x7b".toList.isPrefixOf text.toList = false := by
  obtain ⟨tokens, hlex, -⟩ := parseExpr_eq_ok.mp hparse
  obtain ⟨segments, hlexes, -⟩ := lex_eq_ok.mp hlex
  rw [← append_nil text.toList] at hlexes
  exact not_opening_of_lexes hlexes

theorem Means.passes_iff (hmeans : Means ops text P) (ctx : EvalContext) :
    Passes ops text ctx ↔ P ctx := by
  by_cases hblank : text = ""
  · exact ⟨fun _ => hmeans.blank hblank ctx, fun _ => .inl hblank⟩
  · obtain ⟨node, hparse, heval⟩ := hmeans.parsed hblank
    have hstrip : stripExprDelimiters text = text := by
      have htrim : trimSpace text.toList = text.toList := by
        have := congrArg String.toList hmeans.trimmed_eq
        rwa [trimmed, String.toList_ofList] at this
      rw [stripExprDelimiters, htrim, parseExpr_no_delimiter hparse, Bool.false_and, if_neg (by simp),
        String.ofList_toList]
    have hpasses : evalExpr (engine ops 1) text ctx = eval ops ctx node := by
      have hengine : (engine ops 1).parseExpr text = .ok node := hparse
      rw [evalExpr, hstrip, hengine]
      rfl
    rw [Passes, hpasses, heval]
    exact or_iff_right hblank

theorem Means.compose (ha : Means ops a P) (hb : Means ops b Q) :
    Means ops (composeCond a b) fun ctx => P ctx ∧ Q ctx := by
  rw [composeCond_eq, ha.trimmed_eq, hb.trimmed_eq]
  split
  · rename_i hblank
    refine ⟨hb.trimmed_eq, fun h ctx => ⟨ha.blank hblank ctx, hb.blank h ctx⟩, fun h => ?_⟩
    obtain ⟨node, hparse, heval⟩ := hb.parsed h
    refine ⟨node, hparse, fun ctx => (heval ctx).trans ?_⟩
    exact (and_iff_right (ha.blank hblank ctx)).symm
  · rename_i hne
    split
    · rename_i hblank
      refine ⟨ha.trimmed_eq, fun h => absurd h hne, fun h => ?_⟩
      obtain ⟨node, hparse, heval⟩ := ha.parsed h
      refine ⟨node, hparse, fun ctx => (heval ctx).trans ?_⟩
      exact (and_iff_left (hb.blank hblank ctx)).symm
    · rename_i hne'
      obtain ⟨left, hleft, hevalLeft⟩ := ha.parsed hne
      obtain ⟨right, hright, hevalRight⟩ := hb.parsed hne'
      have hparse := parseExpr_conjunction hleft hright
      refine ⟨trimmed_conjunction a b, fun h => ?_, fun _ => ⟨_, hparse, fun ctx => ?_⟩⟩
      · rw [h] at hparse
        cases hparse
      · rw [eval_and_eq_true, hevalLeft, hevalRight]

theorem means_holds (htrimmed : trimmed text = text) (hexpr : isExpr text = true) :
    Means ops text (Holds ops text) := by
  refine ⟨htrimmed, fun hblank ctx => .inl hblank, fun hne => ?_⟩
  rw [isExpr, Bool.or_eq_true, decide_eq_true_eq, or_iff_right hne] at hexpr
  cases hparse : parseExpr text with
  | error =>
    rw [hparse] at hexpr
    cases hexpr
  | ok node =>
    refine ⟨node, rfl, fun ctx => ⟨fun h => .inr ⟨node, hparse, h⟩, ?_⟩⟩
    rintro (hblank | ⟨node', hparse', heval⟩)
    · exact absurd hblank hne
    · rw [hparse] at hparse'
      cases hparse'
      exact heval

theorem not_holds_of_not_isExpr (hexpr : isExpr text = false) (ctx : EvalContext) :
    ¬Holds ops text ctx := by
  rintro (rfl | ⟨node, hparse, -⟩)
  · cases hexpr
  · rw [isExpr, hparse] at hexpr
    simp [Except.toOption] at hexpr

end Meaning

/-! ## Where emitted steps come from -/

/-- What lowering does with a step: it rewrites a leaf, builds a node anew, or keeps the
step as it stands. -/
inductive Treatment where
  | leaf
  | node
  | kept
  deriving DecidableEq

/-- An authored step that has a step in the output.  `groups` are the `if:` of the groups
around it that were dissolved, outermost first; a child or a body step runs only where its
node does, so those of the node are not repeated for it.  `before` is the edge to the step
emitted before it. -/
structure Origin where
  treatment : Treatment
  groups : List String
  before : List String
  step : AuthoredStep

/-- The edge to the step before. -/
def edgeTo (prevID : String) : List String := if prevID = "" then [] else [prevID]

/-- The steps inside a step. -/
def allStepsBelow (s : AuthoredStep) : List AuthoredStep :=
  allSteps s.subSteps ++ allSteps s.parallelSteps ++ allStepsOfBody s.step

def untouched (steps : List AuthoredStep) : List Origin := steps.map (Origin.mk .kept [] [])

def originsOfLeaf (groups : List String) (prevID : String) (s : AuthoredStep) : List Origin :=
  ⟨.leaf, groups, edgeTo prevID, s⟩ :: untouched (allStepsBelow s)

mutual

/-- The id of the last step that is emitted. -/
def lastOfStep : AuthoredStep → String → String
  | ⟨fields, subSteps, parallelSteps, step⟩, prevID =>
    let s : AuthoredStep := ⟨fields, subSteps, parallelSteps, step⟩
    if s.forEachExpr ≠ "" || s.isTyped || !parallelSteps.isEmpty || subSteps.isEmpty then s.id
    else lastOfSteps subSteps prevID

def lastOfSteps : List AuthoredStep → String → String
  | [], prevID => prevID
  | s :: steps, prevID => lastOfSteps steps (lastOfStep s prevID)

end

mutual

def originsOfStep : AuthoredStep → List String → String → List Origin
  | ⟨fields, subSteps, parallelSteps, step⟩, groups, prevID =>
    let s : AuthoredStep := ⟨fields, subSteps, parallelSteps, step⟩
    if s.forEachExpr ≠ "" then
      ⟨.node, groups, edgeTo prevID, s⟩ :: match subSteps with
        | [] => []
        | [body] => originsOfLeaf [] "" body
        | _ :: _ :: _ =>
          -- nobody wrote the workflow around a body of several steps
          ⟨.kept, [], [], { id := s.id ++ "-body", type := .workflow }⟩ ::
            originsOfSteps subSteps [] ""
    else if s.isTyped then
      ⟨.kept, groups, edgeTo prevID, s⟩ :: untouched (allStepsBelow s)
    else if !parallelSteps.isEmpty then
      ⟨.node, groups, edgeTo prevID, s⟩ :: parallelSteps.flatMap (originsOfLeaf [] "")
    else if !subSteps.isEmpty then originsOfSteps subSteps (groups ++ [s.ifExpr]) prevID
    else originsOfLeaf groups prevID s

def originsOfSteps : List AuthoredStep → List String → String → List Origin
  | [], _, _ => []
  | s :: steps, groups, prevID =>
    originsOfStep s groups prevID ++ originsOfSteps steps groups (lastOfStep s prevID)

end

/-- Steps that are only sequenced. -/
def originsSequenced (splitOf : String → Option String) : String → List AuthoredStep → List Origin
  | _, [] => []
  | prevID, s :: steps =>
    ⟨.kept, [], sequenceEdge (splitOf s.id) prevID, s⟩ :: untouched (allStepsBelow s) ++
      originsSequenced splitOf (if s.id = "" then prevID else s.id) steps

/-- Where the steps of a lowered workflow come from, in the order of `allSteps`. -/
def origins (wf : AuthoredWorkflow) : List Origin :=
  if anyV2Steps wf.steps then originsOfSteps wf.steps [] ""
  else originsSequenced (splitFor wf.steps) "" wf.steps

/-! ## What an emitted step has of its origin -/

/-- The fields of a step that say when it runs and what its gate is. -/
structure Control where
  condition : String
  dependsOn : List String
  seqDependsOn : List String
  failWhen : String
  onFail : Option StepOutcome

def AuthoredStep.control (s : AuthoredStep) : Control :=
  ⟨s.condition, s.dependsOn, s.seqDependsOn, s.failWhen, s.onFail⟩

/-- The guard that steps below groups get, and the last `if:` is their own. -/
def LowerCtx.joined (lc : LowerCtx) (exprs : List String) : String :=
  exprs.foldl (fun inherited expr => composeCond inherited (lc.rewriteExpr expr).1) ""

/-- The control fields of the emitted step. -/
def Origin.lowered (lc : LowerCtx) (o : Origin) : Control :=
  let s := o.step
  match o.treatment with
  | .leaf =>
    { condition := lc.joined (o.groups ++ [s.ifExpr])
      dependsOn := s.dependsOn
      seqDependsOn := if o.before ≠ [] && s.dependsOn = [] then o.before else s.seqDependsOn
      failWhen := (lc.lowerGate s).1
      onFail := rejectRoute s.onFail s.onReject }
  | .node =>
    { condition := lc.joined (o.groups ++ [s.ifExpr])
      dependsOn := []
      seqDependsOn := o.before
      failWhen := (lc.lowerGate s).1
      onFail := rejectRoute s.onFail s.onReject }
  | .kept =>
    { s.control with
      seqDependsOn := if s.dependsOn = [] && s.seqDependsOn = [] then o.before else s.seqDependsOn }

/-- The control fields of a step, with its id. -/
def AuthoredStep.named (s : AuthoredStep) : String × Control := (s.id, s.control)

def Origin.named (lc : LowerCtx) (o : Origin) : String × Control := (o.step.id, o.lowered lc)

section Correspondence

variable {lc : LowerCtx}

theorem allStepsOf_eq (s : AuthoredStep) : allStepsOf s = s :: allStepsBelow s := by
  cases s
  rfl

theorem allSteps_append (steps more : List AuthoredStep) :
    allSteps (steps ++ more) = allSteps steps ++ allSteps more := by
  induction steps with
  | nil => rfl
  | cons s steps ih => rw [cons_append, allSteps, allSteps, ih, append_assoc]

theorem allSteps_singleton (s : AuthoredStep) : allSteps [s] = s :: allStepsBelow s := by
  rw [allSteps, allSteps, append_nil, allStepsOf_eq]

theorem joined_append (groups : List String) (expr : String) :
    lc.joined (groups ++ [expr]) = composeCond (lc.joined groups) (lc.rewriteExpr expr).1 := by
  rw [joined, foldl_append]
  rfl

theorem untouched_named (steps : List AuthoredStep) :
    (untouched steps).map (Origin.named lc) = steps.map AuthoredStep.named := by
  rw [untouched, map_map]
  apply map_congr_left
  intro s _
  simp only [Function.comp_apply, Origin.named, Origin.lowered, AuthoredStep.named,
    AuthoredStep.control, Prod.mk.injEq, Control.mk.injEq, true_and, and_true]
  split <;> simp_all

mutual

theorem applyPendingWritesToStep_named (writes : Writes) : ∀ s : AuthoredStep,
    (allStepsOf (applyPendingWritesToStep writes s)).map named =
      (allStepsOf s).map named
  | ⟨fields, subSteps, parallelSteps, step⟩ => by
      rw [applyPendingWritesToStep, allStepsOf, allStepsOf, map_cons, map_cons,
        map_append, map_append, map_append, map_append,
        applyPendingWrites_named writes subSteps, applyPendingWrites_named writes parallelSteps,
        applyPendingWritesToBody_named writes step]
      rfl

theorem applyPendingWrites_named (writes : Writes) : ∀ steps : List AuthoredStep,
    (allSteps (applyPendingWrites writes steps)).map named =
      (allSteps steps).map named
  | [] => rfl
  | s :: steps => by
      rw [applyPendingWrites, allSteps, allSteps, map_append, map_append,
        applyPendingWritesToStep_named writes s, applyPendingWrites_named writes steps]

theorem applyPendingWritesToBody_named (writes : Writes) : ∀ step : Option AuthoredStep,
    (allStepsOfBody (applyPendingWritesToBody writes step)).map named =
      (allStepsOfBody step).map named
  | none => rfl
  | some s => by
      rw [applyPendingWritesToBody, allStepsOfBody, allStepsOfBody,
        applyPendingWritesToStep_named writes s]

end

/-- The steps of `emitted` have the ids of their origins and the control fields that these are
lowered to. -/
def Matches (lc : LowerCtx) (origins : List Origin) (emitted : List AuthoredStep) : Prop :=
  (allSteps emitted).map named = origins.map (Origin.named lc)

theorem Matches.append {origins more : List Origin} {emitted rest : List AuthoredStep}
    (hfirst : Matches lc origins emitted) (hrest : Matches lc more rest) :
    Matches lc (origins ++ more) (emitted ++ rest) := by
  rw [Matches, allSteps_append, map_append, map_append, hfirst, hrest]

theorem matches_single {o : Origin} {below : List Origin} {e : AuthoredStep}
    (hnamed : e.named = o.named lc)
    (hbelow : (allStepsBelow e).map named = below.map (Origin.named lc)) :
    Matches lc (o :: below) [e] := by
  rw [Matches, allSteps_singleton, map_cons, map_cons, hnamed, hbelow]

theorem lowerLeafStep_matches (groups : List String) (prevID : String) (s : AuthoredStep) :
    Matches lc (originsOfLeaf groups prevID s)
      [(lc.lowerLeafStep s prevID (lc.joined groups)).1] := by
  apply matches_single
  · simp only [AuthoredStep.named, AuthoredStep.control, lowerLeafStep, Origin.named,
      Origin.lowered, joined_append, edgeTo, Prod.mk.injEq, Control.mk.injEq, true_and]
    split <;> simp_all
  · rw [untouched_named]
    rfl

theorem lowerLeafSteps_matches (children : List AuthoredStep) :
    Matches lc (children.flatMap (originsOfLeaf [] ""))
      (children.map fun child => (lc.lowerLeafStep child "" "").1) := by
  induction children with
  | nil => rfl
  | cons child children ih => exact (lowerLeafStep_matches [] "" child).append ih

theorem lowerNode_named (groups : List String) (prevID : String) (s : AuthoredStep) :
    (lc.lowerNode s prevID (lc.joined groups)).1.named =
      Origin.named lc ⟨.node, groups, edgeTo prevID, s⟩ := by
  simp only [AuthoredStep.named, AuthoredStep.control, lowerNode, Origin.named, Origin.lowered,
    joined_append, edgeTo]

theorem lowerParallelStep_matches {groups : List String} {node : AuthoredStep} {writes : Writes}
    (hnode : lc.lowerParallelStep s prevID (lc.joined groups) = .ok (node, writes)) :
    Matches lc (⟨.node, groups, edgeTo prevID, s⟩ :: s.parallelSteps.flatMap (originsOfLeaf [] ""))
      [node] := by
  rw [lowerParallelStep] at hnode
  split_ifs at hnode
  cases hnode
  apply matches_single
  · exact lowerNode_named groups prevID s
  · have hchildren : Matches lc _ _ := lowerLeafSteps_matches s.parallelSteps
    rw [Matches] at hchildren
    rw [← hchildren, allStepsBelow]
    simp [allSteps, allStepsOfBody, lowerNode, map_map, Function.comp_def]

theorem passTyped_matches (groups : List String) (prevID : String) (s : AuthoredStep) :
    Matches lc (⟨.kept, groups, edgeTo prevID, s⟩ :: untouched (allStepsBelow s))
      [passTyped s prevID] := by
  apply matches_single
  · simp only [passTyped, Origin.named, Origin.lowered, edgeTo]
    split <;> split <;> simp_all [AuthoredStep.named, AuthoredStep.control]
  · rw [untouched_named, passTyped]
    split <;> rfl

theorem lastID_append (prevID : String) (steps more : List AuthoredStep) :
    lastID prevID (steps ++ more) = lastID (lastID prevID steps) more := by
  rw [lastID, lastID, lastID, getLast?_append]
  cases more.getLast? <;> rfl

theorem lowerForeachNode_matches {groups below : _} {body : Option AuthoredStep}
    (hbody : (allStepsOfBody body).map named = below.map (Origin.named lc)) :
    Matches lc (⟨.node, groups, edgeTo prevID, s⟩ :: below)
      [{ (lc.lowerForeachNode s prevID (lc.joined groups)).1 with step := body }] := by
  apply matches_single
  · exact lowerNode_named groups prevID s
  · exact hbody

mutual

theorem lowerStep_matches : ∀ (s : AuthoredStep) (groups : List String) (prevID : String)
    {emitted : List AuthoredStep} {writes : Writes},
    lowerStep lc s prevID (lc.joined groups) = .ok (emitted, writes) →
      Matches lc (originsOfStep s groups prevID) emitted ∧
        lastID prevID emitted = lastOfStep s prevID
  | ⟨fields, subSteps, parallelSteps, step⟩, groups, prevID, emitted, writes, hlower => by
      rw [originsOfStep.eq_def, lastOfStep]
      dsimp only
      cases lowerStep_cases hlower with
      | forEach hforEach hid body more hbody =>
        have hforEach : fields.forEachExpr ≠ "" := hforEach
        rw [if_pos hforEach, if_pos (by simp [hforEach])]
        refine ⟨?_, rfl⟩
        cases hbody with
        | none hbody =>
          obtain rfl : subSteps = [] := hbody
          exact lowerForeachNode_matches rfl
        | single child hbody =>
          obtain rfl : subSteps = [child] := hbody
          apply lowerForeachNode_matches
          have hchild : Matches lc _ _ := lowerLeafStep_matches [] "" child
          rw [Matches, allSteps_singleton] at hchild
          rw [allStepsOfBody, allStepsOf_eq]
          exact hchild
        | several inner _ hbody hinner =>
          match subSteps, hbody, hinner with
          | first :: second :: rest, _, hinner =>
            apply lowerForeachNode_matches
            have hsteps := (lowerSteps_matches (first :: second :: rest) [] "" hinner).1
            rw [Matches] at hsteps
            rw [allStepsOfBody, allStepsOf_eq, map_cons, map_cons, ← hsteps]
            simp [allStepsBelow, allSteps, allStepsOfBody, Origin.named, Origin.lowered,
              AuthoredStep.named, AuthoredStep.control]
      | typed hforEach htyped =>
        have hforEach : fields.forEachExpr = "" := hforEach
        rw [if_neg (not_not.mpr hforEach), if_pos htyped, if_pos (by simp [htyped])]
        refine ⟨passTyped_matches groups prevID _, ?_⟩
        rw [passTyped]
        split <;> rfl
      | parallel hforEach htyped hparallel node writes hnode =>
        have hforEach : fields.forEachExpr = "" := hforEach
        have hparallel : parallelSteps ≠ [] := hparallel
        rw [if_neg (not_not.mpr hforEach), if_neg (by simp [htyped]),
          if_pos (by simp [hparallel]), if_pos (by simp [hparallel])]
        refine ⟨lowerParallelStep_matches hnode, ?_⟩
        rw [lowerParallelStep] at hnode
        split_ifs at hnode
        cases hnode
        rfl
      | group hforEach htyped hparallel hgroup children writes hchildren =>
        have hforEach : fields.forEachExpr = "" := hforEach
        have hparallel : parallelSteps = [] := hparallel
        have hgroup : subSteps ≠ [] := hgroup
        rw [if_neg (not_not.mpr hforEach), if_neg (by simp [htyped]),
          if_neg (by simp [hparallel]), if_pos (by simp [hgroup]),
          if_neg (by rw [htyped]; simp [hforEach, hparallel, hgroup])]
        rw [← joined_append] at hchildren
        exact lowerSteps_matches subSteps (groups ++ [fields.ifExpr]) prevID hchildren
      | leaf hforEach htyped hparallel hgroup =>
        have hforEach : fields.forEachExpr = "" := hforEach
        have hparallel : parallelSteps = [] := hparallel
        have hgroup : subSteps = [] := hgroup
        rw [if_neg (not_not.mpr hforEach), if_neg (by simp [htyped]),
          if_neg (by simp [hparallel]), if_neg (by simp [hgroup]), if_pos (by simp [hgroup])]
        exact ⟨lowerLeafStep_matches groups prevID _, rfl⟩

theorem lowerSteps_matches : ∀ (steps : List AuthoredStep) (groups : List String) (prevID : String)
    {emitted : List AuthoredStep} {writes : Writes},
    lowerSteps lc steps prevID (lc.joined groups) = .ok (emitted, writes) →
      Matches lc (originsOfSteps steps groups prevID) emitted ∧
        lastID prevID emitted = lastOfSteps steps prevID
  | [], groups, prevID, emitted, writes, hlower => by
      cases hlower
      exact ⟨rfl, rfl⟩
  | s :: steps, groups, prevID, emitted, writes, hlower => by
      obtain ⟨first, writes₁, rest, writes₂, hfirst, hrest, rfl, rfl⟩ := lowerSteps_cons.mp hlower
      obtain ⟨hmatches, hlast⟩ := lowerStep_matches s groups prevID hfirst
      rw [← lastID, hlast] at hrest
      obtain ⟨hmatches', hlast'⟩ := lowerSteps_matches steps groups _ hrest
      rw [originsOfSteps, lastOfSteps, lastID_append, hlast]
      exact ⟨hmatches.append hmatches', hlast'⟩

end

theorem sequenceFrom_matches (splitOf : String → Option String) (prevID : String)
    (steps : List AuthoredStep) :
    Matches lc (originsSequenced splitOf prevID steps) (sequenceFrom splitOf prevID steps) := by
  induction steps generalizing prevID with
  | nil => rfl
  | cons s steps ih =>
    rw [originsSequenced, sequenceFrom]
    have hfirst : Matches lc
        (⟨.kept, [], sequenceEdge (splitOf s.id) prevID, s⟩ :: untouched (allStepsBelow s))
        [if s.dependsOn = [] && s.seqDependsOn = [] then
          { s with seqDependsOn := sequenceEdge (splitOf s.id) prevID } else s] := by
      apply matches_single
      · simp only [Origin.named, Origin.lowered]
        split <;> simp_all [AuthoredStep.named, AuthoredStep.control]
      · rw [untouched_named]
        split <;> rfl
    exact hfirst.append (ih _)

/-- The steps of a lowered workflow are those of the origins, in their order. -/
theorem lowerV2Workflow_matches {wf out : AuthoredWorkflow} (hlower : lowerV2Workflow wf = .ok out) :
    Matches ⟨indexSteps wf.steps⟩ (origins wf) out.steps := by
  rw [lowerV2Workflow] at hlower
  rw [origins]
  split at hlower
  · rename_i hv2
    rw [if_pos hv2]
    split at hlower
    · cases hlower
    · rename_i hlowered
      cases hlower
      rw [Matches, applyPendingWrites_named]
      exact (lowerSteps_matches wf.steps [] "" hlowered).1
  · rename_i hv2
    rw [if_neg hv2]
    cases hlower
    exact sequenceFrom_matches _ _ _

theorem lowerV2Workflow_control {wf out : AuthoredWorkflow} (hlower : lowerV2Workflow wf = .ok out) :
    (allSteps out.steps).map control =
      (origins wf).map (Origin.lowered ⟨indexSteps wf.steps⟩) := by
  have hnamed := congrArg (map Prod.snd) (lowerV2Workflow_matches hlower)
  rwa [map_map, map_map] at hnamed

end Correspondence

/-! ## What is lost -/

/-- The texts of the `if:` of the groups around the step and of its own. -/
def Origin.ifs (lc : LowerCtx) (o : Origin) : List String :=
  (o.groups ++ [o.step.ifExpr]).map fun expr => trimmed (lc.rewriteExpr expr).1

/-- The emitted step has everything that the author wrote about when it runs and about its
gate. -/
structure Preserves (lc : LowerCtx) (o : Origin) (c : Control) : Prop where
  guard : ∀ ctx, Passes ops c.condition ctx ↔
    (∀ text ∈ o.ifs lc, Holds ops text ctx) ∧ Passes ops o.step.condition ctx
  dependsOn : o.step.dependsOn ⊆ c.dependsOn
  seqDependsOn : o.step.seqDependsOn ⊆ c.seqDependsOn
  failWhen : o.step.failWhen ≠ "" → c.failWhen = o.step.failWhen
  rejectWhen : o.step.rejectWhen ≠ "" → c.failWhen = (lc.rewriteExpr o.step.rejectWhen).1
  onFail : o.step.onFail ≠ none → c.onFail = o.step.onFail
  onReject : o.step.onReject ≠ none → c.onFail = rejectRoute none o.step.onReject

/-- A leaf and a node keep every `if:` and lose the `condition:`, which is no loss where
the `if:` imply it; a step that is kept loses every `if:`. -/
def Origin.KeepsGuard (lc : LowerCtx) (o : Origin) : Prop :=
  match o.treatment with
  | .leaf | .node =>
    ((∀ text ∈ o.ifs lc, isExpr text = true) → ∀ ctx, (∀ text ∈ o.ifs lc, Holds ops text ctx) →
        Passes ops o.step.condition ctx) ∧
      ∀ text ∈ o.ifs lc, isExpr text = false → ∀ ctx,
        ¬Passes ops (lc.joined (o.groups ++ [o.step.ifExpr])) ctx
  | .kept => ∀ ctx, Passes ops o.step.condition ctx → ∀ text ∈ o.ifs lc, Holds ops text ctx

/-- The edge to the step before takes the place of a leaf's own `seq_depends_on`, and a node
has no other edge. -/
def Origin.KeepsEdges (o : Origin) : Prop :=
  match o.treatment with
  | .leaf => o.before = [] ∨ o.step.dependsOn ≠ [] ∨ o.step.seqDependsOn ⊆ o.before
  | .node => o.step.dependsOn = [] ∧ o.step.seqDependsOn ⊆ o.before
  | .kept => True

/-- `reject_when` and `on_reject` take the place of `fail_when` and `on_fail`, except on a
step that is kept, which loses them. -/
def Origin.KeepsGate (lc : LowerCtx) (o : Origin) : Prop :=
  let s := o.step
  match o.treatment with
  | .leaf | .node =>
    (s.failWhen = "" ∨ s.rejectWhen = "" ∨ s.failWhen = (lc.rewriteExpr s.rejectWhen).1) ∧
      (s.onFail = none ∨ s.onReject = none ∨ s.onFail = rejectRoute none s.onReject)
  | .kept =>
    (s.rejectWhen = "" ∨ s.failWhen = (lc.rewriteExpr s.rejectWhen).1) ∧
      (s.onReject = none ∨ s.onFail = rejectRoute none s.onReject)

structure Origin.Keeps (lc : LowerCtx) (o : Origin) : Prop where
  guard : o.KeepsGuard ops lc
  edges : o.KeepsEdges
  gate : o.KeepsGate lc

section Loss

variable {ops} {lc : LowerCtx} {o : Origin}

theorem composeCond_trimmed (a b : String) : composeCond a (trimmed b) = composeCond a b := by
  rw [composeCond_eq, composeCond_eq, trimmed_trimmed]

/-- If every `if:` is an expression, the joined text is their conjunction. -/
theorem means_joined {exprs : List String}
    (hexprs : ∀ expr ∈ exprs, isExpr (trimmed (lc.rewriteExpr expr).1) = true) :
    Means ops (lc.joined exprs)
      fun ctx => ∀ expr ∈ exprs, Holds ops (trimmed (lc.rewriteExpr expr).1) ctx := by
  induction exprs using List.reverseRecOn with
  | nil => refine ⟨rfl, fun _ ctx expr hexpr => absurd hexpr not_mem_nil, fun hne => absurd rfl hne⟩
  | append_singleton exprs expr ih =>
    rw [forall_mem_append] at hexprs
    have hfirst := ih hexprs.1
    have hlast : Means ops (trimmed (lc.rewriteExpr expr).1) _ :=
      means_holds (trimmed_trimmed _) (hexprs.2 expr mem_cons_self)
    have hall : (fun ctx => ∀ e ∈ exprs ++ [expr], Holds ops (trimmed (lc.rewriteExpr e).1) ctx) =
        fun ctx => (∀ e ∈ exprs, Holds ops (trimmed (lc.rewriteExpr e).1) ctx) ∧
          Holds ops (trimmed (lc.rewriteExpr expr).1) ctx := by
      funext ctx
      rw [forall_mem_append, forall_mem_singleton]
    rw [joined_append, ← composeCond_trimmed, hall]
    exact hfirst.compose hlast

theorem passes_joined_iff (hexprs : ∀ text ∈ o.ifs lc, isExpr text = true) (ctx : EvalContext) :
    Passes ops (lc.joined (o.groups ++ [o.step.ifExpr])) ctx ↔
      ∀ text ∈ o.ifs lc, Holds ops text ctx := by
  rw [Origin.ifs, forall_mem_map] at hexprs ⊢
  exact (means_joined hexprs).passes_iff ctx

theorem guard_joined_iff : (∀ ctx, Passes ops (lc.joined (o.groups ++ [o.step.ifExpr])) ctx ↔
        (∀ text ∈ o.ifs lc, Holds ops text ctx) ∧ Passes ops o.step.condition ctx) ↔
      ((∀ text ∈ o.ifs lc, isExpr text = true) → ∀ ctx, (∀ text ∈ o.ifs lc, Holds ops text ctx) →
          Passes ops o.step.condition ctx) ∧
        ∀ text ∈ o.ifs lc, isExpr text = false → ∀ ctx,
          ¬Passes ops (lc.joined (o.groups ++ [o.step.ifExpr])) ctx := by
  constructor
  · intro hguard
    constructor
    · intro hexprs ctx hholds
      exact ((hguard ctx).mp ((passes_joined_iff hexprs ctx).mpr hholds)).2
    · intro text htext hexpr ctx hpasses
      exact not_holds_of_not_isExpr hexpr ctx (((hguard ctx).mp hpasses).1 text htext)
  · rintro ⟨himplies, hmalformed⟩ ctx
    by_cases hexprs : ∀ text ∈ o.ifs lc, isExpr text = true
    · rw [passes_joined_iff hexprs]
      exact ⟨fun hholds => ⟨hholds, himplies hexprs ctx hholds⟩, And.left⟩
    · simp only [not_forall, Bool.not_eq_true] at hexprs
      obtain ⟨text, htext, hexpr⟩ := hexprs
      constructor
      · exact fun hpasses => absurd hpasses (hmalformed text htext hexpr ctx)
      · exact fun hall => absurd (hall.1 text htext) (not_holds_of_not_isExpr hexpr ctx)

theorem leaf_edges_iff {before : List String} : (s.seqDependsOn ⊆
        if before ≠ [] && s.dependsOn = [] then before else s.seqDependsOn) ↔
      before = [] ∨ s.dependsOn ≠ [] ∨ s.seqDependsOn ⊆ before := by
  split
  · rename_i hoverwritten
    rw [Bool.and_eq_true, decide_eq_true_eq, decide_eq_true_eq] at hoverwritten
    simp [hoverwritten.1, hoverwritten.2]
  · rename_i hown
    rw [Bool.and_eq_true, decide_eq_true_eq, decide_eq_true_eq, not_and_or, not_not] at hown
    refine iff_of_true (Subset.refl _) ?_
    exact hown.imp_right .inl

theorem failWhen_iff : ((s.failWhen ≠ "" → (lc.lowerGate s).1 = s.failWhen) ∧
        (s.rejectWhen ≠ "" → (lc.lowerGate s).1 = (lc.rewriteExpr s.rejectWhen).1)) ↔
      s.failWhen = "" ∨ s.rejectWhen = "" ∨ s.failWhen = (lc.rewriteExpr s.rejectWhen).1 := by
  rw [lowerGate]
  by_cases hreject : s.rejectWhen = ""
  · simp [hreject]
  · rw [if_neg hreject]
    simp only [hreject, false_or, ne_eq, not_false_eq_true, forall_const, and_true]
    rw [or_iff_not_imp_left]
    exact imp_congr_right fun _ => eq_comm

theorem onFail_iff : ((s.onFail ≠ none → rejectRoute s.onFail s.onReject = s.onFail) ∧
        (s.onReject ≠ none →
          rejectRoute s.onFail s.onReject = rejectRoute none s.onReject)) ↔
      s.onFail = none ∨ s.onReject = none ∨ s.onFail = rejectRoute none s.onReject := by
  cases s.onReject with
  | none => simp [rejectRoute]
  | some =>
    simp only [rejectRoute, reduceCtorEq, false_or, ne_eq, not_false_eq_true,
      forall_const, and_true]
    rw [or_iff_not_imp_left]
    exact imp_congr_right fun _ => eq_comm

/-- The emitted step has everything of its origin exactly if nothing is lost. -/
theorem preserves_lowered_iff : Preserves ops lc o (o.lowered lc) ↔ o.Keeps ops lc := by
  obtain ⟨treatment, groups, before, s⟩ := o
  cases treatment with
  | leaf =>
    constructor
    · intro h
      exact ⟨guard_joined_iff.mp h.guard, leaf_edges_iff.mp h.seqDependsOn,
        failWhen_iff.mp ⟨h.failWhen, h.rejectWhen⟩,
        onFail_iff.mp ⟨h.onFail, h.onReject⟩⟩
    · intro h
      obtain ⟨hfail, hreject⟩ := failWhen_iff.mpr h.gate.1
      obtain ⟨honFail, honReject⟩ := onFail_iff.mpr h.gate.2
      exact ⟨guard_joined_iff.mpr h.guard, Subset.refl _, leaf_edges_iff.mpr h.edges,
        hfail, hreject, honFail, honReject⟩
  | node =>
    constructor
    · intro h
      exact ⟨guard_joined_iff.mp h.guard, ⟨subset_nil.mp h.dependsOn, h.seqDependsOn⟩,
        failWhen_iff.mp ⟨h.failWhen, h.rejectWhen⟩,
        onFail_iff.mp ⟨h.onFail, h.onReject⟩⟩
    · intro h
      obtain ⟨hfail, hreject⟩ := failWhen_iff.mpr h.gate.1
      obtain ⟨honFail, honReject⟩ := onFail_iff.mpr h.gate.2
      exact ⟨guard_joined_iff.mpr h.guard, subset_nil.mpr h.edges.1, h.edges.2,
        hfail, hreject, honFail, honReject⟩
  | kept =>
    constructor
    · intro h
      exact ⟨fun ctx hpasses => ((h.guard ctx).mp hpasses).1, trivial,
        or_iff_not_imp_left.mpr h.rejectWhen, or_iff_not_imp_left.mpr h.onReject⟩
    · intro h
      refine ⟨fun ctx => ⟨fun hpasses => ⟨h.guard ctx hpasses, hpasses⟩, And.right⟩,
        Subset.refl _, ?_, fun _ => rfl, or_iff_not_imp_left.mp h.gate.1, fun _ => rfl,
        or_iff_not_imp_left.mp h.gate.2⟩
      dsimp only [Origin.lowered]
      split_ifs with hedges
      · rw [Bool.and_eq_true, decide_eq_true_eq, decide_eq_true_eq] at hedges
        rw [hedges.2]
        exact nil_subset _
      · exact Subset.refl _

end Loss

/-- Every step of a lowered workflow has the guards, the edges and the gates of the step it
comes from exactly if no step has any that its shape loses. -/
theorem lowering_preserves_iff_keeps (wf out : AuthoredWorkflow)
    (hlower : lowerV2Workflow wf = .ok out) :
    List.Forall₂ (Preserves ops ⟨indexSteps wf.steps⟩) (origins wf)
        ((allSteps out.steps).map control) ↔
      ∀ o ∈ origins wf, o.Keeps ops ⟨indexSteps wf.steps⟩ := by
  rw [lowerV2Workflow_control hlower, forall₂_map_right_iff, forall₂_same]
  exact forall₂_congr fun o _ => preserves_lowered_iff

instance (o : Origin) : Decidable o.KeepsEdges :=
  match o with
  | ⟨.leaf, _, before, s⟩ => inferInstanceAs
      (Decidable (before = [] ∨ s.dependsOn ≠ [] ∨ s.seqDependsOn ⊆ before))
  | ⟨.node, _, before, s⟩ => inferInstanceAs
      (Decidable (s.dependsOn = [] ∧ s.seqDependsOn ⊆ before))
  | ⟨.kept, _, _, _⟩ => isTrue trivial

/-- A step with at most one gate and one route loses none. -/
theorem Origin.keeps_of_plain {lc : LowerCtx} {o : Origin} (hlowered : o.treatment ≠ .kept)
    (hcondition : o.step.condition = "") (hexprs : ∀ text ∈ o.ifs lc, isExpr text = true)
    (hedges : o.KeepsEdges) (hgate : o.step.failWhen = "") (hroute : o.step.onFail = none) :
    o.Keeps ops lc := by
  obtain ⟨treatment, groups, before, s⟩ := o
  cases treatment with
  | leaf | node =>
    refine ⟨⟨fun _ ctx _ => .inl hcondition, fun text htext hexpr => ?_⟩, hedges, .inl hgate,
      .inl hroute⟩
    exact absurd (hexprs text htext) (by simp [hexpr])
  | kept => exact absurd rfl hlowered

theorem triageAndFix_preserved : ∃ out, lowerV2Workflow triageAndFix = .ok out ∧
      List.Forall₂ (Preserves textOps ⟨indexSteps triageAndFix.steps⟩) (origins triageAndFix)
        ((allSteps out.steps).map control) := by
  have hchecks : ((origins triageAndFix).all fun o =>
      o.treatment ≠ .kept && o.step.condition = "" &&
        (o.ifs ⟨indexSteps triageAndFix.steps⟩).all isExpr && o.KeepsEdges &&
        o.step.failWhen = "" && o.step.onFail = none) = true := by
    decide +kernel
  refine ⟨_, ok_get (by decide +kernel), ?_⟩
  refine (lowering_preserves_iff_keeps textOps triageAndFix _ (ok_get _)).mpr fun o ho => ?_
  have ho := all_eq_true.mp hchecks o ho
  simp only [Bool.and_eq_true, decide_eq_true_eq, all_eq_true] at ho
  obtain ⟨⟨⟨⟨⟨htreatment, hcondition⟩, hexprs⟩, hedges⟩, hgate⟩, hroute⟩ := ho
  exact Origin.keeps_of_plain textOps htreatment hcondition hexprs hedges hgate hroute

/-- A condition and a `seq_depends_on` in a workflow that also has an `if:`. -/
def buildAndDeploy : AuthoredWorkflow where
  id := "build-and-deploy"
  steps :=
    [{ id := "plan" },
      { id := "build", condition := "cell.type == 'bug'", output := some ["artifact"] },
      { id := "deploy", seqDependsOn := ["plan"], ifExpr := "build.artifact != ''" }]

def featureItem : EvalContext where
  cell := { type := "feature" }
  memory := fun _ => none
  steps := fun _ => none
  event := fun _ => none

/-- The condition is overwritten with the empty `if:`, so the step runs on every item. -/
theorem buildAndDeploy_loses_condition : ∃ out, lowerV2Workflow buildAndDeploy = .ok out ∧
      (out.steps.map fun s => (s.id, s.condition, s.seqDependsOn)) =
        [("plan", "", []), ("build", "", ["plan"]), ("deploy", "memory.artifact != ''", ["build"])] ∧
      ¬Passes textOps "cell.type == 'bug'" featureItem ∧
      ¬List.Forall₂ (Preserves textOps ⟨indexSteps buildAndDeploy.steps⟩) (origins buildAndDeploy)
        ((allSteps out.steps).map control) := by
  have hfeature : ¬Passes textOps "cell.type == 'bug'" featureItem := by
    rintro (hblank | hpasses)
    · nomatch hblank
    · exact absurd hpasses (by decide +kernel)
  refine ⟨_, ok_get (by decide +kernel), by decide +kernel, hfeature, fun hall => ?_⟩
  rw [lowerV2Workflow_control (ok_get _), forall₂_map_right_iff, forall₂_same] at hall
  have hbuild : Preserves textOps _ _ _ :=
    hall ⟨.leaf, [], ["plan"], _⟩ (mem_cons_of_mem _ mem_cons_self)
  exact hfeature ((hbuild.guard featureItem).mp (.inl rfl)).2

end Apiary.Config
