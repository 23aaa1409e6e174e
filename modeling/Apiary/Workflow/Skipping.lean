import Apiary.Workflow.Graph

/-!
# Why a step is skipped

The cascade skips a pending step only because a dependency of it ended without
passing.  `Cascades` says so for every operation that skips: a step that changed
is one of the `roots` the operation started from, or it is blocked afterwards.
-/

namespace Apiary.Workflow

open Config

variable {wf : WorkflowConfig} {state : StateMap} {id : String}
  {skip : StateMap → String → StateMap}

/-- A dependency ended in a state that keeps the step from ever running. -/
def blocked (wf : WorkflowConfig) (state : StateMap) (id : String) : Bool :=
  (byID wf id).dependsOn.any (fun dep =>
      state dep = some .skipped || state dep = some .failed || state dep = some .condSkipped) ||
    (byID wf id).seqDependsOn.any fun dep => state dep = some .skipped || state dep = some .failed

theorem unreachable_eq (wf : WorkflowConfig) (activated : String → Bool) (state : StateMap)
    (id : String) :
    unreachable wf activated state id = (blocked wf state id ||
        (splitTarget wf id && !activated id && feedingSplitsDone wf state id)) := rfl

theorem blocked_iff : blocked wf state id = true ↔
      (∃ dep ∈ (byID wf id).dependsOn, state dep = some .skipped ∨ state dep = some .failed ∨
        state dep = some .condSkipped) ∨
      ∃ dep ∈ (byID wf id).seqDependsOn, state dep = some .skipped ∨ state dep = some .failed := by
  simp only [blocked, Bool.or_eq_true, List.any_eq_true, decide_eq_true_eq, or_assoc]

/-- A dependency of either kind. -/
def DependsOn (wf : WorkflowConfig) (id dep : String) : Prop :=
  dep ∈ (byID wf id).dependsOn ∨ dep ∈ (byID wf id).seqDependsOn

theorem blocked_of_skipped {dep : String} (hdep : DependsOn wf id dep)
    (hskipped : state dep = some .skipped) : blocked wf state id = true := by
  apply blocked_iff.mpr
  rcases hdep with hdep | hdep
  · exact Or.inl ⟨dep, hdep, Or.inl hskipped⟩
  · exact Or.inr ⟨dep, hdep, Or.inl hskipped⟩

/-- A blocked step stays blocked while the states that block it are kept or turned
into skips. -/
theorem blocked_mono {old new : StateMap}
    (hkept : ∀ dep, DependsOn wf id dep →
      (old dep = some .skipped ∨ old dep = some .failed ∨ old dep = some .condSkipped) →
      new dep = old dep ∨ new dep = some .skipped) (hblocked : blocked wf old id = true) :
    blocked wf new id = true := by
  rw [blocked_iff] at hblocked ⊢
  rcases hblocked with ⟨dep, hdep, hold⟩ | ⟨dep, hdep, hold⟩
  · rcases hkept dep (Or.inl hdep) hold with heq | hskipped
    · exact Or.inl ⟨dep, hdep, heq ▸ hold⟩
    · exact Or.inl ⟨dep, hdep, Or.inl hskipped⟩
  · have hbad := hold.imp_right (Or.inl (b := old dep = some .condSkipped))
    rcases hkept dep (Or.inr hdep) hbad with heq | hskipped
    · exact Or.inr ⟨dep, hdep, heq ▸ hold⟩
    · exact Or.inr ⟨dep, hdep, Or.inl hskipped⟩

/-- A change of step states by a skip cascade from `roots`. -/
structure Cascades (wf : WorkflowConfig) (roots : String → Prop) (old new : StateMap) : Prop where
  skips : Skips roots old new
  caused : ∀ id, new id = old id ∨ roots id ∨ blocked wf new id = true

section Cascades

variable {wf : WorkflowConfig} {roots roots' : String → Prop} {old new : StateMap}

theorem Cascades.refl (state : StateMap) : Cascades wf roots state state :=
  ⟨Skips.refl state, fun _ => Or.inl rfl⟩

theorem Cascades.blocked (hcascades : Cascades wf roots old new)
    (hblocked : blocked wf old id = true) : blocked wf new id = true := by
  refine blocked_mono (fun dep _ _ => ?_) hblocked
  exact (hcascades.skips dep).imp_right fun hskipped => hskipped.1

theorem Cascades.trans {last : StateMap} (hleft : Cascades wf roots old new)
    (hright : Cascades wf roots new last) : Cascades wf roots old last where
  skips := hleft.skips.trans hright.skips
  caused id := by
    rcases hright.caused id with heq | hcause
    · rw [heq]
      exact (hleft.caused id).imp_right fun hcause => hcause.imp_right hright.blocked
    · exact Or.inr hcause

theorem Cascades.mono (hcascades : Cascades wf roots old new)
    (hroots : ∀ id, roots id → roots' id) : Cascades wf roots' old new where
  skips := hcascades.skips.mono hroots
  caused id := (hcascades.caused id).imp_right fun hcause => hcause.imp_left (hroots id)

theorem Cascades.skipped (hcascades : Cascades wf roots old new)
    (hskipped : old id = some .skipped) : new id = some .skipped := by
  rcases hcascades.skips id with heq | ⟨hnew, -⟩
  · rw [heq, hskipped]
  · exact hnew

/-- A root that is pending and blocked needs no excuse. -/
theorem Cascades.discharge {root : String} (hcascades : Cascades wf (fun id => id = root) old new)
    (hpending : old root = some .pending) (hblocked : Workflow.blocked wf new root = true) :
    Cascades wf (fun _ => False) old new where
  skips id := by
    refine (hcascades.skips id).imp_right fun ⟨hskipped, hfrom⟩ => ⟨hskipped, Or.inl ?_⟩
    rcases hfrom with hold | rfl
    · exact hold
    · exact hpending
  caused id := by
    rcases hcascades.caused id with heq | rfl | hid
    · exact Or.inl heq
    · exact Or.inr (Or.inr hblocked)
    · exact Or.inr (Or.inr hid)

end Cascades

/-- The cascade from `id` reaches the steps that depend on it. -/
theorem skipDependent_cascades
    (hskip : ∀ state other, Cascades wf (fun id => id = other) state (skip state other))
    (hskipped : state id = some .skipped) (other : String) :
    Cascades wf (fun _ => False) state (skipDependent wf skip id state other) := by
  have hkind : ∀ deps, (∀ dep ∈ deps, DependsOn wf other dep) → ∀ state, state id = some .skipped →
        Cascades wf (fun _ => False) state (skipIfDependent skip id deps state other) := by
    intro deps hdeps state hskipped
    rw [skipIfDependent]
    split_ifs with hpending
    · simp only [Bool.and_eq_true, decide_eq_true_eq] at hpending
      have hcascades := hskip state other
      refine hcascades.discharge hpending.1 ?_
      exact blocked_of_skipped (hdeps id hpending.2) (hcascades.skipped hskipped)
    · exact Cascades.refl state
  have hfirst := hkind _ (fun _ => Or.inl) state hskipped
  exact hfirst.trans (hkind _ (fun _ => Or.inr) _ (hfirst.skipped hskipped))

theorem foldl_skipDependent_cascades
    (hskip : ∀ state other, Cascades wf (fun id => id = other) state (skip state other))
    (others : List String) (hskipped : state id = some .skipped) :
    Cascades wf (fun _ => False) state (others.foldl (skipDependent wf skip id) state) := by
  induction others generalizing state with
  | nil => exact Cascades.refl state
  | cons other others ih =>
    have hfirst := skipDependent_cascades hskip hskipped other
    exact hfirst.trans (ih (hfirst.skipped hskipped))

theorem cascadeSkip_cascades (wf : WorkflowConfig) (fuel : ℕ) (state : StateMap) (id : String) :
    Cascades wf (fun root => root = id) state (cascadeSkip wf fuel state id) := by
  induction fuel generalizing state id with
  | zero => exact Cascades.refl state
  | succ fuel ih =>
    rw [cascadeSkip]
    split
    · exact Cascades.refl state
    · have hroot : Cascades wf (fun root => root = id) state
          (Function.update state id (some .skipped)) := by
        constructor
        · intro other
          by_cases hother : other = id
          · subst hother
            exact Or.inr ⟨Function.update_self .., Or.inr rfl⟩
          · exact Or.inl (Function.update_of_ne hother _ _)
        · intro other
          by_cases hother : other = id
          · exact Or.inr (Or.inl hother)
          · exact Or.inl (Function.update_of_ne hother _ _)
      have hrest := foldl_skipDependent_cascades ih (order wf)
        (Function.update_self id (some .skipped) state)
      exact hroot.trans (hrest.mono fun _ => False.elim)

theorem foldl_skipIfUnreachable_cascades (wf : WorkflowConfig) (activated : String → Bool)
    (ids : List String) (acc : StateMap × Bool) :
    Cascades wf (fun id => acc.1 id = some .pending ∧ activated id = false) acc.1
      (ids.foldl (skipIfUnreachable wf activated) acc).1 := by
  induction ids generalizing acc with
  | nil => exact Cascades.refl acc.1
  | cons id ids ih =>
    have hfirst : Cascades wf (fun id => acc.1 id = some .pending ∧ activated id = false) acc.1
        (skipIfUnreachable wf activated acc id).1 := by
      rw [skipIfUnreachable]
      split_ifs with hpending
      · simp only [Bool.and_eq_true, decide_eq_true_eq, unreachable_eq, Bool.or_eq_true,
          Bool.not_eq_true'] at hpending
        obtain ⟨hpending, hblocked | hinactive⟩ := hpending
        · have hcascades := cascadeSkip_cascades wf (wf.steps.length + 1) acc.1 id
          exact (hcascades.discharge hpending (hcascades.blocked hblocked)).mono
            fun _ => False.elim
        · refine (cascadeSkip_cascades wf _ acc.1 id).mono ?_
          rintro _ rfl
          exact ⟨hpending, hinactive.1.2⟩
      · exact Cascades.refl acc.1
    refine hfirst.trans ((ih _).mono ?_)
    rintro other ⟨hpending, hinactive⟩
    refine ⟨?_, hinactive⟩
    rcases hfirst.skips other with heq | ⟨hskipped, -⟩
    · rwa [← heq]
    · simp [hskipped] at hpending

theorem skipUnreachable_cascades (r : DagRun) :
    Cascades r.wf (fun id => r.state id = some .pending ∧ r.activated id = false) r.state
      (skipUnreachable r).1.state :=
  foldl_skipIfUnreachable_cascades r.wf r.activated (order r.wf) (r.state, false)

theorem skipUnreachable_skips (r : DagRun) :
    Skips (fun _ => False) r.state (skipUnreachable r).1.state := by
  intro id
  refine ((skipUnreachable_cascades r).skips id).imp_right fun ⟨hskipped, hfrom⟩ => ?_
  exact ⟨hskipped, Or.inl (hfrom.elim (fun hold => hold) And.left)⟩

end Apiary.Workflow
