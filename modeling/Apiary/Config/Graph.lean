import Apiary.Config.Validate
import Apiary.Core.Colouring

/-!
# Validation of the step graph

`validateStepGraph` checks the dependency edges of a workflow: that they name known
steps, that they close no cycle and that a loop-back goes to an ancestor.
`validateSplitStep` checks the branches of a split.
-/

namespace Apiary.Config

open List Colouring

variable {s : StepConfig} {dep : String}

/-- Both kinds of dependency are edges of the graph. -/
def StepConfig.deps (s : StepConfig) : List String := s.dependsOn ++ s.seqDependsOn

section Graph

variable (ctx : String) (wf : WorkflowConfig)

def stepIDs : List String := (wf.steps.map StepConfig.id).filter (· ≠ "")

def dependencyErrors : List String :=
  wf.steps.flatMap fun s => s.deps.flatMap fun d =>
    if d ∉ stepIDs wf then
      [ctx ++ ": step " ++ quote s.id ++ " depends_on unknown step " ++ quote d]
    else if d = s.id then [ctx ++ ": step " ++ quote s.id ++ " depends on itself"]
    else []

/-- The dependencies that become edges. -/
def edgeDeps (s : StepConfig) : List String := s.deps.filter fun d => d ∈ stepIDs wf && d ≠ s.id

/-- `adj`: the dependents of a step, once for each edge. -/
def dependentsOf (id : String) : List String :=
  wf.steps.flatMap fun s => ((edgeDeps wf s).filter (· = id)).map fun _ => s.id

/-- `deps`: the direct dependencies of a step. -/
def depsOf (id : String) : List String := (wf.steps.filter fun s => s.id = id).flatMap (edgeDeps wf)

/-- The id of a step on a cycle of `adj`, if there is one. -/
def findCycle (adj : String → List String) : Option String :=
  match finish adj (wf.steps.length + 1) (wf.steps.map StepConfig.id) with
  | .error node => some node
  | .ok _ => none

/-- The queue of `isAncestor`.  Every id puts its dependencies on the queue once, so
`fuel` is bounded by the number of edges. -/
def ancestorLoop (candidate : String) : ℕ → List String → List String → Bool
  | _, _, [] => false
  | 0, _, _ :: _ => false
  | fuel + 1, visited, cur :: queue =>
    if cur = candidate then true
    else if cur ∈ visited then ancestorLoop candidate fuel visited queue
    else ancestorLoop candidate fuel (cur :: visited) (queue ++ depsOf wf cur)

def isAncestor (node candidate : String) : Bool :=
  ancestorLoop wf candidate (2 * (wf.steps.flatMap (edgeDeps wf)).length + 1) [] (depsOf wf node)

/-- The position a map filled in declaration order holds under an id. -/
def seqOrder (id : String) : ℕ :=
  ((wf.steps.zipIdx.reverse.find? fun p => p.1.id = id).map Prod.snd).getD 0

/-- Without any edge, declaration order decides what an ancestor is. -/
def targetsAncestor (id goto : String) : Bool :=
  if (wf.steps.flatMap (edgeDeps wf)).isEmpty then seqOrder wf goto < seqOrder wf id
  else isAncestor wf id goto

def backEdgeErrors (field : String) (s : StepConfig) (edge : Option StepOutcome) : List String :=
  match edge with
  | none => []
  | some o =>
    if o.goto ≠ "" && o.goto ∈ stepIDs wf && !targetsAncestor wf s.id o.goto then
      [ctx ++ ": step " ++ quote s.id ++ " " ++ field ++ ".goto " ++ quote o.goto ++
        " must target an ancestor step (a transitive dependency)"]
    else []

def validateStepGraph : List String :=
  dependencyErrors ctx wf ++ (match findCycle wf (dependentsOf wf) with
      | none => []
      | some id => [ctx ++ ": dependency cycle detected involving step " ++ quote id]) ++
    wf.steps.flatMap fun s =>
      backEdgeErrors ctx wf "on_fail" s s.onFail ++ backEdgeErrors ctx wf "on_conflict" s s.onConflict

def branchErrors (sctx : String) : ℕ → List SplitBranch → List String
  | _, [] => []
  | index, b :: branches =>
    (if b.goto = "" then [sctx ++ ": branches[" ++ toString index ++ "]: goto is required"]
     else if b.goto ∉ stepIDs wf then
       [sctx ++ ": branches[" ++ toString index ++ "]: goto references unknown step " ++
         quote b.goto]
     else []) ++ branchErrors sctx (index + 1) branches

/-- A single-match split has exactly one fallback. -/
def validateSplitStep (sctx : String) (s : StepConfig) : List String :=
  (if s.agent ≠ "" then [sctx ++ ": split step must not have an agent field"] else []) ++
    if s.branches = [] then [sctx ++ ": split step requires at least one branch"]
    else
      branchErrors wf sctx 0 s.branches ++
        if !s.multi && (s.branches.filter SplitBranch.isFallback).length ≠ 1 then
          [sctx ++ ": split with multi: false requires exactly one else/fallback branch (found " ++
            toString (s.branches.filter SplitBranch.isFallback).length ++ ")"]
        else []

def splitErrors : List String :=
  wf.steps.flatMap fun s =>
    if s.type = .split then validateSplitStep wf (ctx ++ ": step " ++ quote s.id) s else []

/-- The checks of validation on edges and branches. -/
def validateGraph : List String := splitErrors ctx wf ++ validateStepGraph ctx wf

end Graph

/-! ## Routes -/

/-- The dependents of a step and, for a split, the targets it can route to. -/
def routesFrom (wf : WorkflowConfig) (id : String) : List String :=
  dependentsOf wf id ++ (wf.steps.filter fun s => s.type = .split && s.id = id).flatMap fun s =>
      s.branches.map SplitBranch.goto

/-- No split routes back to a step it comes after. -/
def routesForward (wf : WorkflowConfig) : Bool := (findCycle wf (routesFrom wf)).isNone

section Accepted

variable {ctx : String} {wf : WorkflowConfig}

/-- A dependency of an accepted workflow is a declared step and an edge. -/
theorem mem_dependentsOf (hvalid : validateGraph ctx wf = []) (hs : s ∈ wf.steps)
    (hdep : dep ∈ s.deps) : dep ∈ wf.steps.map StepConfig.id ∧ s.id ∈ dependentsOf wf dep := by
  rw [validateGraph, validateStepGraph, append_assoc, append_eq_nil_iff,
    append_eq_nil_iff] at hvalid
  have herrors := flatMap_eq_nil_iff.mp (flatMap_eq_nil_iff.mp hvalid.2.1 s hs) dep hdep
  have hknown : dep ∈ stepIDs wf := by
    by_contra hunknown
    simp [hunknown] at herrors
  have hother : dep ≠ s.id := by
    intro hself
    rw [if_neg (not_not.mpr hknown), if_pos hself] at herrors
    cases herrors
  refine ⟨(mem_filter.mp hknown).1, ?_⟩
  refine mem_flatMap.mpr ⟨s, hs, mem_map.mpr ⟨dep, ?_, rfl⟩⟩
  simp [edgeDeps, hdep, hknown, hother]

theorem mem_routesFrom_of_dep (hvalid : validateGraph ctx wf = []) (hs : s ∈ wf.steps)
    (hdep : dep ∈ s.deps) : s.id ∈ routesFrom wf dep :=
  mem_append_left _ (mem_dependentsOf hvalid hs hdep).2

theorem mem_routesFrom_of_branch (hs : s ∈ wf.steps) (htype : s.type = .split) {b : SplitBranch}
    (hb : b ∈ s.branches) : b.goto ∈ routesFrom wf s.id := by
  refine mem_append_right _ (mem_flatMap.mpr ⟨s, ?_, mem_map_of_mem hb⟩)
  exact mem_filter.mpr ⟨hs, by simp [htype]⟩

theorem exists_first_step (hforward : routesForward wf = true) {p : String → Prop}
    (hsome : ∃ id ∈ wf.steps.map StepConfig.id, p id) :
    ∃ id, p id ∧ ∀ other ∈ wf.steps.map StepConfig.id, id ∈ routesFrom wf other → ¬ p other := by
  rw [routesForward, findCycle] at hforward
  split at hforward
  · cases hforward
  · rename_i hfinish
    obtain ⟨hfinished, hall⟩ := finish_eq_ok hfinish
    obtain ⟨id, hid, hp⟩ := hsome
    obtain ⟨first, -, hfirst, hnone⟩ := hfinished.exists_first ⟨id, hall id hid, hp⟩
    exact ⟨first, hfirst, fun other hother => hnone other (hall other hother)⟩

end Accepted

/-! ## Cycles and ancestors -/

def Edge (wf : WorkflowConfig) (id dep : String) : Prop := dep ∈ depsOf wf id

section Exact

open Relation

variable {wf : WorkflowConfig} {id candidate : String} {visited queue : List String}

theorem onCycle_iff : Colouring.OnCycle (dependentsOf wf) id ↔ TransGen (Edge wf) id id := by
  have hedge : (fun x y => y ∈ dependentsOf wf x) = Function.swap (Edge wf) := by
    funext x y
    simp [dependentsOf, depsOf, Function.swap, Edge, @eq_comm _ y, and_assoc,
      @and_comm (_ ∈ edgeDeps _ _)]
  rw [Colouring.OnCycle, hedge, transGen_swap]

theorem Edge.known (hedge : Edge wf id dep) : dep ∈ stepIDs wf := by
  obtain ⟨s, -, hdep⟩ := mem_flatMap.mp hedge
  simp only [edgeDeps, mem_filter, Bool.and_eq_true, decide_eq_true_eq] at hdep
  exact hdep.2.1

/-- The edges of the ids that have not put theirs on the queue. -/
def edgesLeft (wf : WorkflowConfig) (visited : List String) : ℕ :=
  ((wf.steps.filter fun s => s.id ∉ visited).flatMap (edgeDeps wf)).length

theorem edgesLeft_cons (hid : id ∉ visited) :
    edgesLeft wf (id :: visited) + (depsOf wf id).length = edgesLeft wf visited := by
  rw [edgesLeft, edgesLeft, depsOf]
  generalize edgeDeps wf = deps
  induction wf.steps with
  | nil => rfl
  | cons s steps ih =>
    by_cases hs : s.id = id
    · simp [hs, hid] at ih ⊢
      omega
    · by_cases hvisited : s.id ∈ visited <;> simp [hs, hvisited] at ih ⊢ <;> omega

/-- A visited id is not the one searched for, and its dependencies are visited or queued. -/
def Explored (wf : WorkflowConfig) (candidate : String) (visited queue : List String) : Prop :=
  ∀ id ∈ visited, id ≠ candidate ∧ ∀ dep, Edge wf id dep → dep ∈ visited ∨ dep ∈ queue

theorem Explored.exists_queued (hvisited : Explored wf candidate visited queue) (hid : id ∈ visited)
    (hpath : ReflTransGen (Edge wf) id candidate) :
    ∃ id ∈ queue, ReflTransGen (Edge wf) id candidate := by
  induction hpath using ReflTransGen.head_induction_on with
  | refl => exact absurd rfl (hvisited _ hid).1
  | head hedge hpath ih =>
    rcases (hvisited _ hid).2 _ hedge with hold | hqueued
    · exact ih hold
    · exact ⟨_, hqueued, hpath⟩

theorem ancestorLoop_iff {fuel : ℕ} (hvisited : Explored wf candidate visited queue)
    (hfuel : queue.length + edgesLeft wf visited ≤ fuel) :
    ancestorLoop wf candidate fuel visited queue = true ↔
      ∃ id ∈ queue, ReflTransGen (Edge wf) id candidate := by
  fun_induction ancestorLoop wf candidate fuel visited queue with
  | case1 => simp
  | case2 => simp at hfuel
  | case3 => exact iff_of_true rfl ⟨_, mem_cons_self, .refl⟩
  | case4 fuel visited cur queue hne hcur ih =>
    have hexplored : Explored wf candidate visited queue := by
      refine fun id hid => ⟨(hvisited id hid).1, fun dep hedge => ?_⟩
      rcases (hvisited id hid).2 dep hedge with hold | hqueued
      · exact .inl hold
      · exact (mem_cons.mp hqueued).imp_left fun h : dep = cur => h ▸ hcur
    rw [ih hexplored (by rw [length_cons] at hfuel; omega)]
    simpa using hexplored.exists_queued hcur
  | case5 fuel visited cur queue hne hcur ih =>
    have hleft := @edgesLeft_cons wf _ _ hcur
    have hexplored : Explored wf candidate (cur :: visited) (queue ++ depsOf wf cur) := by
      refine forall_mem_cons.mpr ⟨⟨hne, fun dep hedge => .inr (mem_append_right _ hedge)⟩, ?_⟩
      refine fun id hid => ⟨(hvisited id hid).1, fun dep hedge => ?_⟩
      have hold := (hvisited id hid).2 dep hedge
      simp only [mem_cons, mem_append] at hold ⊢
      tauto
    rw [ih hexplored (by rw [length_cons] at hfuel; rw [length_append]; omega)]
    simp [ReflTransGen.cases_head_iff (a := cur), hne, or_and_right, exists_or, or_comm, Edge]

/-- The search finds a cycle exactly when there is one and names a step on it, the queue finds
exactly the transitive dependencies, and more fuel changes neither. -/
theorem findCycle_isAncestor_exact (wf : WorkflowConfig) :
    (findCycle wf (dependentsOf wf) = none ↔ ∀ id, ¬ TransGen (Edge wf) id id) ∧
    (∀ id, findCycle wf (dependentsOf wf) = some id → id ≠ "" ∧ TransGen (Edge wf) id id) ∧
    (∀ id candidate, isAncestor wf id candidate = true ↔ TransGen (Edge wf) id candidate) ∧
    (∀ fuel > wf.steps.length, finish (dependentsOf wf) fuel (wf.steps.map StepConfig.id) =
      finish (dependentsOf wf) (wf.steps.length + 1) (wf.steps.map StepConfig.id)) ∧
    ∀ fuel > 2 * (wf.steps.flatMap (edgeDeps wf)).length, ∀ id candidate,
      ancestorLoop wf candidate fuel [] (depsOf wf id) = isAncestor wf id candidate := by
  have hknown : ∀ {id}, TransGen (Edge wf) id id → id ∈ wf.steps.map StepConfig.id ∧ id ≠ "" := by
    intro id hcycle
    obtain ⟨_, -, hedge⟩ := TransGen.tail'_iff.mp hcycle
    simpa [stepIDs] using hedge.known
  have hnodes : ∀ id, dependentsOf wf id ⊆ wf.steps.map StepConfig.id := by
    intro id dep hdep
    obtain ⟨s, hs, hdep⟩ := mem_flatMap.mp hdep
    obtain ⟨_, -, rfl⟩ := mem_map.mp hdep
    exact mem_map_of_mem hs
  have hsearch := fun fuel => @Colouring.finish_agree _ _ _ _ hnodes fuel
  rw [length_map] at hsearch
  have hqueue : ∀ fuel > 2 * (wf.steps.flatMap (edgeDeps wf)).length, ∀ id candidate,
      ancestorLoop wf candidate fuel [] (depsOf wf id) = true ↔ TransGen (Edge wf) id candidate := by
    intro fuel hfuel id candidate
    have hleft := @edgesLeft_cons wf id [] not_mem_nil
    have hall : edgesLeft wf [] = (wf.steps.flatMap (edgeDeps wf)).length := by simp [edgesLeft]
    rw [ancestorLoop_iff (by simp [Explored]) (by omega), TransGen.head'_iff]
    rfl
  refine and_assoc.mp ⟨?_, hqueue _ (Nat.lt_succ_self _),
    fun fuel hfuel => (hsearch fuel hfuel).1.symm, ?_⟩
  · rw [findCycle]
    cases hrun : finish (dependentsOf wf) (wf.steps.length + 1)
        (wf.steps.map StepConfig.id) with
    | error node =>
      have hcycle := onCycle_iff.mp ((hsearch _ (Nat.lt_succ_self _)).2 node hrun)
      refine ⟨iff_of_false nofun fun hnone => hnone node hcycle, ?_⟩
      rintro _ ⟨⟩
      exact ⟨(hknown hcycle).2, hcycle⟩
    | ok black =>
      obtain ⟨hfinished, hall⟩ := finish_eq_ok hrun
      refine ⟨iff_of_true rfl fun id hcycle => ?_, nofun⟩
      exact hfinished.not_onCycle (hall id (hknown hcycle).1) (onCycle_iff.mpr hcycle)
  · intro fuel hfuel id candidate
    exact Bool.eq_iff_iff.mpr ((hqueue fuel hfuel id candidate).trans
      (hqueue _ (Nat.lt_succ_self _) id candidate).symm)

end Exact

end Apiary.Config
