import Apiary.Workflow.Quiescence
import Apiary.Workflow.Termination

/-!
# What skip propagation reaches

The sweep and the cascade of each step that it marks run in declaration order.  Repeated
until a sweep changes nothing, they skip the least set of pending steps that is closed
under the rules, whatever the order and however the dependencies run.
-/

namespace Apiary.Workflow

open Config List

variable {wf : WorkflowConfig} {activated : String → Bool} {state old new : StateMap}
  {id : String} {S S' : Set String} {r : DagRun}

/-- A step never runs once those in `S` are skipped: a dependency ended without passing or
is in `S`, or no split is left that could still choose it. -/
def SkipRule (wf : WorkflowConfig) (activated : String → Bool) (state : StateMap)
    (S : Set String) (id : String) : Prop :=
  (∃ dep ∈ (byID wf id).dependsOn, dep ∈ S ∨ state dep = some .skipped ∨
      state dep = some .failed ∨ state dep = some .condSkipped) ∨
    (∃ dep ∈ (byID wf id).seqDependsOn, dep ∈ S ∨ state dep = some .skipped ∨
      state dep = some .failed) ∨
    splitTarget wf id = true ∧ activated id = false ∧ ∀ s ∈ wf.steps, s.type = .split →
      ∀ b ∈ s.branches, b.goto = id → s.id ∈ S ∨ state s.id ≠ some .pending

def SkipClosed (wf : WorkflowConfig) (activated : String → Bool) (state : StateMap)
    (S : Set String) : Prop :=
  ∀ id ∈ order wf, state id = some .pending → SkipRule wf activated state S id → id ∈ S

/-- Sweeps until one changes nothing; `none` when `fuel` sweeps were not enough. -/
def skipAll : ℕ → DagRun → Option DagRun
  | 0, _ => none
  | fuel + 1, r =>
    let pass := skipUnreachable r
    if pass.2 then skipAll fuel pass.1 else some pass.1

def skippedSince (old new : StateMap) : Set String :=
  {id | old id = some .pending ∧ new id = some .skipped}

theorem SkipRule.mono (hsub : S ⊆ S') (hrule : SkipRule wf activated state S id) :
    SkipRule wf activated state S' id := by
  rcases hrule with ⟨dep, hdep, hst⟩ | ⟨dep, hdep, hst⟩ | ⟨htarget, hinactive, hsplits⟩
  · exact .inl ⟨dep, hdep, hst.imp_left (@hsub dep)⟩
  · exact .inr (.inl ⟨dep, hdep, hst.imp_left (@hsub dep)⟩)
  · exact .inr (.inr ⟨htarget, hinactive, fun s hs htype b hb hgoto =>
      (hsplits s hs htype b hb hgoto).imp_left (@hsub _)⟩)

/-- The check of a sweep is the rule with the steps skipped so far. -/
theorem unreachable_iff (hskips : Skips (fun _ => False) old new) :
    unreachable wf activated new id = true ↔
      SkipRule wf activated old (skippedSince old new) id := by
  have hcases : ∀ dep, new dep = old dep ∨ new dep = some .skipped ∧ old dep = some .pending :=
    fun dep => (hskips dep).imp_right fun h => ⟨h.1, h.2.resolve_right fun h => h⟩
  have hskipped : ∀ dep, new dep = some .skipped ↔
      dep ∈ skippedSince old new ∨ old dep = some .skipped := by
    intro dep
    rcases hcases dep with heq | ⟨hnew, hold⟩
    · rw [skippedSince, Set.mem_ofPred_eq, heq]
      exact ⟨.inr, fun h => h.elim And.right fun h => h⟩
    · simp [skippedSince, hnew, hold]
  have hended : ∀ dep st, st ≠ .skipped → st ≠ .pending →
      (new dep = some st ↔ old dep = some st) := by
    intro dep st hne hne'
    rcases hcases dep with heq | ⟨hnew, hold⟩
    · rw [heq]
    · simp [hnew, hold, hne.symm, hne'.symm]
  have hwaits : ∀ dep, new dep ≠ some .pending ↔
      dep ∈ skippedSince old new ∨ old dep ≠ some .pending := by
    intro dep
    rcases hcases dep with heq | ⟨hnew, hold⟩
    · simp +contextual [skippedSince, heq]
    · simp [skippedSince, hnew, hold]
  rw [unreachable_eq, Bool.or_eq_true, blocked_iff, or_assoc, SkipRule]
  simp only [hskipped, hended _ .failed (by decide) (by decide),
    hended _ .condSkipped (by decide) (by decide), feedingSplitsDone, all_eq_true,
    Bool.and_eq_true, Bool.or_eq_true, Bool.not_eq_true', decide_eq_true_eq, hwaits, or_assoc,
    and_assoc, or_iff_not_imp_left (a := _ ≠ _), not_not]

/-! ## Nothing else is skipped -/

/-- Only pending steps of `S` were skipped. -/
def Within (S : Set String) (old new : StateMap) : Prop :=
  ∀ id, new id = old id ∨ new id = some .skipped ∧ old id = some .pending ∧ id ∈ S

theorem Within.skips (hwithin : Within S old new) : Skips (fun _ => False) old new :=
  fun id => (hwithin id).imp_right fun h => ⟨h.1, .inl h.2.1⟩

theorem Within.pending (hwithin : Within S old new) (hpending : new id = some .pending) :
    old id = some .pending :=
  hwithin.skips.changes.of_not_allowed (by simp) hpending

theorem Within.subset (hwithin : Within S old new) : skippedSince old new ⊆ S := by
  rintro id ⟨hold, hnew⟩
  rcases hwithin id with heq | hid
  · simp [heq, hold] at hnew
  · exact hid.2.2

section Sound

variable (hclosed : SkipClosed wf activated old S)

include hclosed

theorem cascadeSkip_within (fuel : ℕ) (hwithin : Within S old state)
    (hpending : old id = some .pending) (hid : id ∈ S) :
    Within S old (cascadeSkip wf fuel state id) := by
  induction fuel generalizing state id with
  | zero => exact hwithin
  | succ fuel ih =>
    rw [cascadeSkip]
    split
    · exact hwithin
    have hmarked : Within S old (Function.update state id (some .skipped)) := by
      intro other
      by_cases hother : other = id
      · subst hother
        exact .inr ⟨Function.update_self .., hpending, hid⟩
      · rw [Function.update_of_ne hother]
        exact hwithin other
    refine foldlRecOn _ _ hmarked fun state hstate other hother => ?_
    have hkind : ∀ deps, (id ∈ deps → SkipRule wf activated old S other) → ∀ {state},
        Within S old state →
          Within S old (skipIfDependent (cascadeSkip wf fuel) id deps state other) := by
      intro deps hrule state hstate
      rw [skipIfDependent]
      split
      · rename_i hskip
        simp only [Bool.and_eq_true, decide_eq_true_eq] at hskip
        have hold := hstate.pending hskip.1
        exact ih hstate hold (hclosed other hother hold (hrule hskip.2))
      · exact hstate
    exact hkind _ (fun hdep => .inr (.inl ⟨id, hdep, .inl hid⟩))
      (hkind _ (fun hdep => .inl ⟨id, hdep, .inl hid⟩) hstate)

theorem skipUnreachable_within (hstate : Within S old r.state) (hwf : r.wf = wf)
    (hactivated : r.activated = activated) : Within S old (skipUnreachable r).1.state := by
  subst hwf hactivated
  refine foldlRecOn (motive := fun acc : _ × Bool => Within S old acc.1) _ _ hstate
    fun acc hacc id hid => ?_
  rw [skipIfUnreachable]
  split
  · rename_i hskip
    simp only [Bool.and_eq_true, decide_eq_true_eq] at hskip
    have hold := hacc.pending hskip.1
    have hrule := (unreachable_iff hacc.skips).mp hskip.2
    exact cascadeSkip_within hclosed _ hacc hold (hclosed id hid hold (hrule.mono hacc.subset))
  · exact hacc

end Sound

/-! ## The cascade and the sweeps end -/

def pendingSteps (wf : WorkflowConfig) (state : StateMap) : ℕ :=
  (order wf).countP fun id => state id = some .pending

section Pending

variable (hchange : ChangesTo (fun st => st = .skipped) old new)

include hchange

theorem pendingSteps_le : pendingSteps wf new ≤ pendingSteps wf old := by
  refine countP_mono_left fun id _ hid => ?_
  rw [decide_eq_true_eq] at hid ⊢
  exact hchange.of_not_allowed (by simp) hid

theorem pendingSteps_lt (hid : id ∈ order wf) (hold : old id = some .pending)
    (hnew : new id ≠ some .pending) : pendingSteps wf new < pendingSteps wf old := by
  refine countP_lt_countP (fun other _ hother => ?_) hid (decide_eq_true hold) (decide_eq_false hnew)
  rw [decide_eq_true_eq] at hother ⊢
  exact hchange.of_not_allowed (by simp) hother

end Pending

/-- Each call of the cascade marks a step that was pending, so more fuel than pending steps
is never used. -/
theorem cascadeSkip_fuel {n fuel : ℕ} (hfuel : n ≤ fuel) (hid : id ∈ order wf)
    (hpending : state id = some .pending) (hn : pendingSteps wf state ≤ n) :
    cascadeSkip wf fuel state id = cascadeSkip wf n state id := by
  induction n generalizing fuel state id with
  | zero =>
    have hpos : 0 < pendingSteps wf state := countP_pos_iff.mpr ⟨id, hid, by simpa using hpending⟩
    omega
  | succ n ih =>
    obtain ⟨fuel, rfl⟩ := Nat.exists_eq_succ_of_ne_zero (Nat.ne_zero_of_lt hfuel)
    have hkind : ∀ other ∈ order wf, ∀ deps state, pendingSteps wf state ≤ n →
        skipIfDependent (cascadeSkip wf fuel) id deps state other =
            skipIfDependent (cascadeSkip wf n) id deps state other ∧
          pendingSteps wf (skipIfDependent (cascadeSkip wf n) id deps state other) ≤ n := by
      intro other hother deps state hn
      rw [skipIfDependent, skipIfDependent]
      split
      · rename_i hskip
        simp only [Bool.and_eq_true, decide_eq_true_eq] at hskip
        have hskips := (cascadeSkip_cascades wf n state other).skips
        exact ⟨ih (Nat.le_of_succ_le_succ hfuel) hother hskip.1 hn,
          (pendingSteps_le hskips.changes).trans hn⟩
      · exact ⟨rfl, hn⟩
    have hfold : ∀ others ⊆ order wf, ∀ state, pendingSteps wf state ≤ n →
        others.foldl (skipDependent wf (cascadeSkip wf fuel) id) state =
          others.foldl (skipDependent wf (cascadeSkip wf n) id) state := by
      intro others hothers
      induction others with
      | nil => exact fun _ _ => rfl
      | cons other others ih =>
        intro state hn
        obtain ⟨hother, hothers⟩ := cons_subset.mp hothers
        obtain ⟨hfirst, hle⟩ := hkind other hother (byID wf other).dependsOn state hn
        obtain ⟨hsecond, hle⟩ := hkind other hother (byID wf other).seqDependsOn _ hle
        rw [foldl_cons, foldl_cons, skipDependent, hfirst, hsecond]
        exact ih hothers _ hle
    have hmarked := pendingSteps_lt (ChangesTo.update state id rfl) hid hpending (by simp)
    rw [cascadeSkip, cascadeSkip, if_neg (by simp [hpending]), if_neg (by simp [hpending])]
    exact hfold _ (Subset.refl _) _ (by omega)

theorem skipAll_eq_some {n : ℕ} (hn : pendingSteps r.wf r.state < n) :
    ∃ t, skipAll n r = some t ∧ Skips (fun _ => False) r.state t.state ∧
      (∀ id ∈ order r.wf, t.state id = some .pending →
        unreachable r.wf r.activated t.state id = false) ∧
      ∀ S, SkipClosed r.wf r.activated old S → Within S old r.state → Within S old t.state := by
  induction n generalizing r with
  | zero => exact absurd hn (Nat.not_lt_zero _)
  | succ n ih =>
    have hskips := skipUnreachable_skips r
    rw [skipAll]
    by_cases hpass : (skipUnreachable r).2 = true
    · obtain ⟨id, hid, hpending, hafter⟩ := skipUnreachable_changed hpass
      have hless := pendingSteps_lt hskips.changes hid hpending hafter
      obtain ⟨t, hrun, hrest, hnever, hwithin⟩ := @ih (skipUnreachable r).1
        (hless.trans_le (Nat.lt_succ_iff.mp hn))
      refine ⟨t, by rw [if_pos hpass, hrun], hskips.trans hrest, hnever, ?_⟩
      exact fun S hclosed hstate =>
        hwithin S hclosed (skipUnreachable_within hclosed hstate rfl rfl)
    · obtain ⟨hsame, hnever⟩ := foldl_skipIfUnreachable_unchanged (Bool.eq_false_iff.mpr hpass)
      have hstate : (skipUnreachable r).1.state = r.state := congrArg Prod.fst hsame
      refine ⟨_, if_neg hpass, hskips, by rwa [hstate], ?_⟩
      exact fun S hclosed hstate => skipUnreachable_within hclosed hstate rfl rfl

/-- Repeated sweeps end, and what they skip is the least set of pending steps closed under the
rules; a cascade ends too: fuel beyond the number of steps changes nothing. -/
theorem skipAll_least (r : DagRun) :
    (∃ t, skipAll ((order r.wf).length + 1) r = some t ∧
      (∀ id, t.state id = r.state id ∨ id ∈ skippedSince r.state t.state) ∧
      IsLeast {S | SkipClosed r.wf r.activated r.state S} (skippedSince r.state t.state)) ∧
    ∀ fuel state, ∀ id ∈ order r.wf, r.wf.steps.length < fuel → state id = some .pending →
      cascadeSkip r.wf fuel state id = skipState r.wf state id := by
  constructor
  · obtain ⟨t, hrun, hskips, hnever, hwithin⟩ :=
      @skipAll_eq_some r.state r _ (Nat.lt_succ_of_le countP_le_length)
    have hchanged : ∀ id, t.state id = r.state id ∨ id ∈ skippedSince r.state t.state :=
      fun id => (hskips id).imp_right fun h => ⟨h.2.resolve_right fun h => h, h.1⟩
    refine ⟨t, hrun, hchanged, ?_, ?_⟩
    · intro id hid hpending hrule
      refine (hchanged id).resolve_left fun heq => ?_
      have hreach := hnever id hid (heq.trans hpending)
      exact absurd ((unreachable_iff hskips).mpr hrule) (by simp [hreach])
    · exact fun S hclosed => (hwithin S hclosed fun _ => .inl rfl).subset
  · intro fuel state id hid hfuel hpending
    have hle : pendingSteps r.wf state ≤ r.wf.steps.length :=
      countP_le_length.trans (length_map _).le
    rw [skipState, cascadeSkip_fuel hfuel.le hid hpending hle,
      cascadeSkip_fuel (Nat.le_succ _) hid hpending hle]

end Apiary.Workflow
