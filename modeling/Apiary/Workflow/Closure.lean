import Apiary.Config.Validate
import Apiary.Workflow.Ledger

/-!
# Steps run after what they depend on

The scheduler reads the dependencies of a step once, when it picks the step, and
never again.  In a fresh run they stay satisfied for as long as the step is
running, waiting or passed: between two loop-backs a dependency that counts is
left alone, and a loop-back takes every dependent back with it.
-/

namespace Apiary.Workflow

open Config List Function Machine DriveState

variable {st : Status} {r : DagRun} {id : String} {ids : List String} {wr : WorkerResult}

/-! ## State maps that are closed under dependencies -/

/-- A sequential dependency is satisfied. -/
def Satisfied (st : Option Status) : Prop := st = some .passed ∨ st = some .condSkipped

/-- A step that was dispatched and has not failed. -/
def Underway (st : Option Status) : Prop :=
  st = some .passed ∨ st = some .running ∨ st = some .waiting

def DepsClosed (wf : WorkflowConfig) (state : StateMap) : Prop :=
  ∀ id, Underway (state id) → depsPassed wf state id = true

section Closed

variable {wf : WorkflowConfig} {state old new : StateMap} {id : String}

theorem depsPassed_iff : depsPassed wf state id = true ↔
    (∀ dep ∈ (byID wf id).dependsOn, state dep = some .passed) ∧
      ∀ dep ∈ (byID wf id).seqDependsOn, Satisfied (state dep) := by
  simp [depsPassed, Satisfied]

theorem depsPassed_of_kept
    (hkept : ∀ dep, dep ∈ (byID wf id).dependsOn ∨ dep ∈ (byID wf id).seqDependsOn →
      Satisfied (old dep) → new dep = old dep)
    (hdeps : depsPassed wf old id = true) : depsPassed wf new id = true := by
  obtain ⟨hexplicit, hseq⟩ := depsPassed_iff.mp hdeps
  refine depsPassed_iff.mpr ⟨?_, ?_⟩
  · intro dep hdep
    rw [hkept dep (Or.inl hdep) (Or.inl (hexplicit dep hdep))]
    exact hexplicit dep hdep
  · intro dep hdep
    rw [hkept dep (Or.inr hdep) (hseq dep hdep)]
    exact hseq dep hdep

/-- What the loop does to step states between two loop-backs: what counts stays,
and a step begins only with its dependencies passed. -/
structure Advances (wf : WorkflowConfig) (old new : StateMap) : Prop where
  kept : ∀ id, Satisfied (old id) → new id = old id
  underway : ∀ id, Underway (new id) → Underway (old id) ∨ depsPassed wf old id = true

theorem Advances.depsPassed (hadv : Advances wf old new)
    (hdeps : depsPassed wf old id = true) : depsPassed wf new id = true :=
  depsPassed_of_kept (fun dep _ => hadv.kept dep) hdeps

theorem DepsClosed.advance (hclosed : DepsClosed wf old) (hadv : Advances wf old new) :
    DepsClosed wf new := by
  intro id hunderway
  apply hadv.depsPassed
  rcases hadv.underway id hunderway with hold | hdeps
  · exact hclosed id hold
  · exact hdeps

/-- One step moves that does not count yet. -/
theorem Advances.update (hfree : ¬ Satisfied (state id))
    (hunderway : Underway (some st) → Underway (state id) ∨ Workflow.depsPassed wf state id = true) :
    Advances wf state (Function.update state id (some st)) where
  kept := by
    intro other hsatisfied
    have hne : other ≠ id := fun heq => hfree (heq ▸ hsatisfied)
    exact update_of_ne hne _ _
  underway := by
    intro other hother
    by_cases heq : other = id
    · subst heq
      rw [update_self] at hother
      exact hunderway hother
    · rw [update_of_ne heq] at hother
      exact Or.inl hother

/-- Skips advance if they take no step that counts. -/
theorem Skips.advances {may : String → Prop} (hskips : Skips may old new)
    (hmay : ∀ id, Satisfied (old id) → ¬ may id) : Advances wf old new where
  kept := by
    intro id hsatisfied
    rcases hskips id with heq | ⟨-, hpending | hallowed⟩
    · exact heq
    · simp [hpending, Satisfied] at hsatisfied
    · exact absurd hallowed (hmay id hsatisfied)
  underway := by
    intro id hunderway
    rcases hskips id with heq | ⟨hskipped, -⟩
    · exact Or.inl (heq ▸ hunderway)
    · simp [hskipped, Underway] at hunderway

end Closed

/-! ## Loop-backs -/

section Reset

variable {wf : WorkflowConfig} {id dep target : String}

/-- A step that is not declared depends on nothing. -/
theorem mem_dependents
    (hdep : dep ∈ (byID wf id).dependsOn ∨ dep ∈ (byID wf id).seqDependsOn) :
    id ∈ dependents wf dep := by
  have hid : id ∈ order wf := by
    cases hfind : findStep id wf.steps with
    | none =>
      rw [byID, hfind] at hdep
      rcases hdep with h | h <;> cases h
    | some found =>
      obtain ⟨hmem, hname⟩ := findStep_eq_some hfind
      exact mem_map.mpr ⟨found, hmem, hname⟩
  refine mem_filter.mpr ⟨hid, ?_⟩
  simpa using hdep

theorem mem_resetSet_iff : id ∈ resetSet wf target ↔ Marking.Reaches (dependents wf) target id := by
  have hnodes : ∀ x ∈ insert target (order wf).toFinset, ∀ y ∈ dependents wf x,
      y ∈ insert target (order wf).toFinset := by
    intro x _ y hy
    exact Finset.mem_insert_of_mem (mem_toFinset.mpr (mem_filter.mp hy).1)
  have hcard : (insert target (order wf).toFinset).card < wf.steps.length + 2 := by
    calc (insert target (order wf).toFinset).card
        ≤ (order wf).toFinset.card + 1 := Finset.card_insert_le _ _
      _ ≤ (order wf).length + 1 := Nat.add_le_add_right (toFinset_card_le _) 1
      _ < wf.steps.length + 2 := by simp [order]
  exact Marking.mem_mark_iff hnodes (Finset.mem_insert_self _ _) hcard

theorem resetSet_closed (hdep : dep ∈ resetSet wf target) (hid : id ∈ dependents wf dep) :
    id ∈ resetSet wf target :=
  mem_resetSet_iff.mpr ((mem_resetSet_iff.mp hdep).tail hid)

/-- A dependent that stays keeps what it depends on. -/
theorem DepsClosed.reset (hclosed : DepsClosed r.wf r.state) (target : String) :
    DepsClosed r.wf (r.resetLoop target).state := by
  intro id hunderway
  have hout : id ∉ resetSet r.wf target := by
    intro hin
    simp [DagRun.resetLoop, hin, Underway] at hunderway
  have hsame : ∀ other, other ∉ resetSet r.wf target →
      (r.resetLoop target).state other = r.state other := by
    intro other hother
    simp [DagRun.resetLoop, hother]
  rw [hsame id hout] at hunderway
  refine depsPassed_of_kept ?_ (hclosed id hunderway)
  intro dep hdep _
  exact hsame dep fun hin => hout (resetSet_closed hin (mem_dependents hdep))

end Reset

/-! ## The invariant -/

/-- A step the loop has picked and not dispatched yet.  A split dispatched before it
may have skipped it, and the loop dispatches it all the same. -/
structure Ready (r : DagRun) (id : String) : Prop where
  deps : depsPassed r.wf r.state id = true
  activated : r.activated id = true
  idle : r.state id = some .pending ∨ r.state id = some .skipped

/-- The states a step reaches only once it is activated. -/
def Moved (st : Option Status) : Prop := Underway st ∨ Satisfied st

structure Ordered (s : DriveState) : Prop where
  closed : DepsClosed s.run.wf s.run.state
  moved : ∀ id, Moved (s.run.state id) → s.run.activated id = true
  flight : FlightOk s.run.state s.run.activated s.busyIDs
  picked : ∀ ids, s.phase = .dispatch ids → ids.Nodup ∧ ∀ id ∈ ids, Ready s.run id
  parked : s.phase = .parked → s.run.state s.run.waitingStep = some .waiting

theorem Ready.free (hready : Ready r id) : ¬ Moved (r.state id) := by
  rcases hready.idle with h | h <;> simp [h, Moved, Underway, Satisfied]

theorem Ready.advance {r' : DagRun} (hready : Ready r id) (hwf : r'.wf = r.wf)
    (hkept : ∀ id, Satisfied (r.state id) → r'.state id = r.state id)
    (hactive : ∀ id, r.activated id = true → r'.activated id = true)
    (hstate : r'.state id = r.state id ∨ r'.state id = some .skipped) : Ready r' id where
  deps := by
    rw [hwf]
    exact depsPassed_of_kept (fun dep _ => hkept dep) hready.deps
  activated := hactive id hready.activated
  idle := by
    rcases hstate with heq | hskipped
    · rw [heq]
      exact hready.idle
    · exact Or.inr hskipped

section Steps

variable {e : Engine} {s t : DriveState}

variable (ho : Ordered s)

include ho

/-- A step of the loop in which nothing moves but the loop itself. -/
theorem Ordered.still (hrun : t.run = s.run)
    (hflight : FlightOk s.run.state s.run.activated t.busyIDs)
    (hpicked : ∀ ids, t.phase = .dispatch ids → ids.Nodup ∧ ∀ id ∈ ids, Ready s.run id)
    (hparked : t.phase = .parked → s.phase = .parked) : Ordered t where
  closed := hrun.symm ▸ ho.closed
  moved := hrun.symm ▸ ho.moved
  flight := hrun.symm ▸ hflight
  picked := hrun.symm ▸ hpicked
  parked := fun hphase => hrun.symm ▸ ho.parked (hparked hphase)

theorem Ordered.update (hfree : ¬ Satisfied (s.run.state id)) (hactive : s.run.activated id = true)
    (hunderway : Underway (some st) → Underway (s.run.state id) ∨ depsPassed s.run.wf s.run.state id = true)
    (hwf : t.run.wf = s.run.wf) (hstate : t.run.state = Function.update s.run.state id (some st))
    (hmono : ∀ id, s.run.activated id = true → t.run.activated id = true)
    (hflight : FlightOk t.run.state t.run.activated t.busyIDs)
    (hpicked : ∀ ids, t.phase = .dispatch ids → ids.Nodup ∧ ∀ id ∈ ids, Ready t.run id)
    (hparked : t.phase = .parked → t.run.state t.run.waitingStep = some .waiting) : Ordered t where
  closed := by
    rw [hwf, hstate]
    exact ho.closed.advance (Advances.update hfree hunderway)
  moved := by
    intro other hother
    apply hmono
    rw [hstate] at hother
    by_cases heq : other = id
    · exact heq ▸ hactive
    · rw [update_of_ne heq] at hother
      exact ho.moved other hother
  flight := hflight
  picked := hpicked
  parked := hparked

/-- The steps picked after `id`, once `id` has moved. -/
theorem Ordered.rest (hphase : s.phase = .dispatch (id :: ids)) (hwf : r.wf = s.run.wf)
    (hkept : ∀ other, Satisfied (s.run.state other) → r.state other = s.run.state other)
    (hactive : ∀ other, s.run.activated other = true → r.activated other = true)
    (hstate : ∀ other, other ≠ id →
      r.state other = s.run.state other ∨ r.state other = some .skipped) :
    ∀ ids', Phase.dispatch ids = .dispatch ids' → ids'.Nodup ∧ ∀ other ∈ ids', Ready r other := by
  intro ids' heq
  rw [Phase.dispatch.injEq] at heq
  subst heq
  obtain ⟨hnodup, hready⟩ := ho.picked _ hphase
  obtain ⟨hfresh, hnodup⟩ := nodup_cons.mp hnodup
  refine ⟨hnodup, ?_⟩
  intro other hother
  have hne : other ≠ id := fun heq => hfresh (heq ▸ hother)
  exact (hready other (mem_cons_of_mem _ hother)).advance hwf hkept hactive (hstate other hne)

theorem Ordered.routed (hphase : s.phase = .dispatch (id :: ids)) {step : StepConfig}
    (hid : step.id = id) (chosen : List String) :
    Ordered { s.began step with
      run := s.run.routeSplit step chosen, phase := .dispatch ids } := by
  obtain ⟨state, hskips, heq⟩ := routeSplit_eq s.run step chosen
  rw [hid] at hskips
  have hready := (ho.picked _ hphase).2 id mem_cons_self
  have hfree : ¬ Satisfied (s.run.state id) := fun h => hready.free (Or.inr h)
  have hpassed : Advances s.run.wf s.run.state
      (Function.update s.run.state id (some .passed)) :=
    Advances.update hfree fun _ => Or.inr hready.deps
  -- a target that moved is activated, so the split does not skip it
  have hmoved : ∀ other, Moved (Function.update s.run.state id (some .passed) other) →
      s.run.activated other = true := by
    intro other hother
    by_cases hsame : other = id
    · exact hsame ▸ hready.activated
    · rw [update_of_ne hsame] at hother
      exact ho.moved other hother
  have hskip : Advances s.run.wf (Function.update s.run.state id (some .passed)) state := by
    refine hskips.advances fun other hsatisfied hmay => ?_
    rw [hmoved other (Or.inr hsatisfied)] at hmay
    cases hmay.2
  have hback : ∀ other, Moved (state other) →
      Moved (Function.update s.run.state id (some .passed) other) := by
    intro other hother
    rcases hskips other with hsame | ⟨hskipped, -⟩
    · exact hsame ▸ hother
    · simp [hskipped, Moved, Underway, Satisfied] at hother
  have hbusy : s.busyIDs = s.inFlightIDs := busyIDs_of_held (by rw [hphase]; rfl)
  rw [heq]
  refine ⟨(ho.closed.advance hpassed).advance hskip, ?_, ?_, ?_, by simp⟩
  · intro other hother
    simp [hmoved other (hback other hother)]
  · have hflight := ho.flight
    rw [hbusy] at hflight
    refine ⟨hflight.nodup, ?_, ?_⟩
    · intro other hother
      have hrunning := hflight.running other hother
      have hne : other ≠ id := by
        rintro rfl
        exact hready.free (Or.inl (Or.inr (Or.inl hrunning)))
      have hmid : Function.update s.run.state id (some .passed) other = some .running := by
        rwa [update_of_ne hne]
      change state other = _
      rcases hskips other with hsame | ⟨-, hpending | hmay⟩
      · exact hsame.trans hmid
      · simp [hmid] at hpending
      · rw [hflight.activated other hrunning] at hmay
        cases hmay.2
    · intro other hother
      have hactive := hmoved other (hback other (Or.inl (Or.inr (Or.inl hother))))
      simp [hactive]
  · refine ho.rest hphase rfl ?_ ?_ ?_
    · intro other hsatisfied
      have hmid := hpassed.kept other hsatisfied
      exact (hskip.kept other (hmid.symm ▸ hsatisfied)).trans hmid
    · intro other hother
      simp [hother]
    · intro other hne
      rcases hskips other with hsame | ⟨hskipped, -⟩
      · exact Or.inl (hsame.trans (update_of_ne hne _ _))
      · exact Or.inr hskipped

variable (hs : WellFormed s)

include hs

theorem Ordered.dispatched (hphase : s.phase = .dispatch (id :: ids)) {out : DriveState × Bool}
    (hout : Dispatched s (byID s.run.wf id) id out) :
    Ordered { out.1 with phase := if out.2 then .check else .dispatch ids } := by
  have hstepID := byID_id ((cons_subset.mp (hs.picked _ hphase)).1)
  have hready := (ho.picked _ hphase).2 id mem_cons_self
  have hsatisfied : ¬ Satisfied (s.run.state id) := fun h => hready.free (Or.inr h)
  have hidle : s.run.state id ≠ some .running := fun h => hready.free (Or.inl (Or.inr (Or.inl h)))
  have hbusy : s.busyIDs = s.inFlightIDs := busyIDs_of_held (by rw [hphase]; rfl)
  have hflight := ho.flight
  rw [hbusy] at hflight
  have hrest : ∀ st, ∀ ids', Phase.dispatch ids = .dispatch ids' →
      ids'.Nodup ∧ ∀ other ∈ ids', Ready (s.run.setState id st) other := by
    intro st
    refine ho.rest hphase rfl ?_ (fun _ h => h) fun other hne => Or.inl (setState_of_ne _ hne _)
    intro other hother
    have hne : other ≠ id := fun heq => hsatisfied (heq ▸ hother)
    exact setState_of_ne _ hne _
  have hlaunch : ∀ {t : DriveState}, t.run = s.run.setState id .running →
      t.phase = .dispatch ids → t.inFlightIDs.Perm (id :: s.inFlightIDs) → Ordered t := by
    intro t hrun hto hperm
    refine ho.update hsatisfied hready.activated (fun _ => Or.inr hready.deps) (by rw [hrun]; rfl)
      (by rw [hrun]; rfl) (by simp [hrun, DagRun.setState]) ?_ ?_ (by simp [hto])
    · rw [hrun, busyIDs_of_held (by rw [hto]; rfl)]
      exact hflight.launch hidle hready.activated hperm
    · rw [hrun, hto]
      exact hrest _
  cases hout with
  | errored | asked => exact hlaunch rfl rfl (push_inFlightIDs s hstepID _)
  | condSkipped =>
    have hfree : id ∉ s.inFlightIDs := fun h => hidle (hflight.running id h)
    refine ho.update hsatisfied hready.activated (fun _ => Or.inr hready.deps) rfl rfl
      (fun _ h => h) (hflight.settle hfree (by decide)) ?_ (by simp)
    intro ids' heq
    obtain ⟨hnodup, hready'⟩ := hrest .condSkipped ids' heq
    exact ⟨hnodup, fun other h => ⟨(hready' other h).deps, (hready' other h).activated,
      (hready' other h).idle⟩⟩
  | routed chosen => exact ho.routed hphase hstepID chosen
  | full =>
    refine ho.still rfl ?_ (by simp) (by simp)
    rw [busyIDs_of_held rfl]
    exact hflight
  | spawned => exact hlaunch rfl rfl (spawn_inFlightIDs s hstepID)

omit hs in
theorem Ordered.move (hheld : s.phase.held = []) {phase : Phase} (hto : phase.held = [])
    (hpicked : ∀ ids, phase ≠ .dispatch ids) (hparked : phase ≠ .parked) :
    Ordered { s with phase := phase } := by
  refine ho.still rfl ?_ (fun ids h => absurd h (hpicked ids)) fun h => absurd h hparked
  rw [busyIDs_of_held hto]
  exact busyIDs_of_held hheld ▸ ho.flight

omit hs in
theorem Ordered.pick (hnodup : (order s.run.wf).Nodup) (hphase : s.phase = .top) :
    Ordered { s with
      phase := .dispatch (pickAllRunnable s.run.wf s.run.state s.run.activated) } := by
  refine ho.still rfl ?_ ?_ (by simp)
  · rw [busyIDs_of_held rfl]
    exact busyIDs_of_held (s := s) (by rw [hphase]; rfl) ▸ ho.flight
  · intro ids heq
    rw [Phase.dispatch.injEq] at heq
    subst heq
    refine ⟨hnodup.filter _, ?_⟩
    intro id hid
    have hpick := (mem_filter.mp hid).2
    simp only [Bool.and_eq_true, decide_eq_true_eq] at hpick
    exact ⟨hpick.2, hpick.1.2, Or.inl hpick.1.1⟩

theorem Ordered.quiesced (hphase : s.phase = .check) (hnone : s.inFlight = 0) (hstep : Quiesced s t) :
    Ordered t := by
  have hheld : s.phase.held = [] := by rw [hphase]; rfl
  have hempty := hs.inFlightIDs_eq_nil hnone
  -- nothing is in flight, so only what is running has to be activated
  have hflight : ∀ {state : StateMap}, ChangesTo (fun st => st ≠ .running) s.run.state state →
      FlightOk state s.run.activated s.inFlightIDs := by
    intro state hchange
    rw [hempty]
    refine ⟨nodup_nil, by simp, ?_⟩
    intro id hrunning
    exact ho.flight.activated id (hchange.of_not_allowed (by simp) hrunning)
  cases hstep with
  | stopped | failed | again | ended => exact ho.move hheld rfl (by simp) (by simp)
  | reset =>
    have hchange := resetLoop_changes s.run s.loopTarget
    refine ⟨ho.closed.reset s.loopTarget, ?_, hflight (hchange.mono (by simp)), by simp, by simp⟩
    intro id hmoved
    rcases hchange id with heq | ⟨st, hpending, rfl⟩
    · exact ho.moved id (heq ▸ hmoved)
    · simp [hpending, Moved, Underway, Satisfied] at hmoved
  | skipped =>
    have hskips := skipUnreachable_skips s.run
    have hadv : Advances s.run.wf s.run.state (skipUnreachable s.run).1.state :=
      hskips.advances fun _ _ => id
    refine ⟨ho.closed.advance hadv, ?_, hflight (hskips.changes.mono (by simp)), by simp, by simp⟩
    intro id hmoved
    rcases hskips id with heq | ⟨hskipped, -⟩
    · exact ho.moved id (heq ▸ hmoved)
    · simp [hskipped, Moved, Underway, Satisfied] at hmoved

omit hs in
omit ho in
theorem Applied.activated_mono (happlied : Applied e s wr t) (hactive : s.run.activated id = true) :
    t.run.activated id = true := by
  cases happlied.effect with
  | passed hsuccess hstate hcontrib hactivated => rw [hactivated, hactive, Bool.true_or]
  | refused st hst hsuccess hstate hcontrib hactivated => rwa [hactivated]

omit hs in
theorem Ordered.finish (hrunning : s.run.state id = some .running) (hwf : t.run.wf = s.run.wf)
    (hstate : t.run.state = Function.update s.run.state id (some st))
    (hmono : ∀ id, s.run.activated id = true → t.run.activated id = true)
    (hflight : FlightOk t.run.state s.run.activated t.busyIDs)
    (hpicked : ∀ ids, t.phase ≠ .dispatch ids)
    (hparked : t.phase = .parked → t.run.state t.run.waitingStep = some .waiting) : Ordered t :=
  ho.update (by simp [hrunning, Satisfied]) (ho.flight.activated id hrunning)
    (fun _ => Or.inl (Or.inr (Or.inl hrunning))) hwf hstate hmono (hflight.mono hmono)
    (fun ids h => absurd h (hpicked ids)) hparked

omit hs in
theorem Ordered.received {rest : List WorkerResult} (hphase : s.phase = .recv)
    (hresult : s.resultCh = wr :: rest) (hstep : Received e (s.take rest) wr t) : Ordered t := by
  have hperm := take_inFlightIDs hresult
  rw [← busyIDs_of_held (s := s) (by rw [hphase]; rfl)] at hperm
  have hflight := ho.flight.perm hperm
  cases hstep with
  | dropped => exact ho.still rfl hflight.tail (by simp) (by simp)
  | parking => exact ho.still rfl hflight (by simp) (by simp)
  | applied hstopped hparks t happlied =>
    obtain ⟨st, hst, hstate⟩ := happlied.state_eq
    have hidle : st ≠ .running := by
      rcases hst with rfl | rfl | rfl <;> decide
    obtain ⟨_, _, _, rfl⟩ := happlied.eq
    refine ho.finish (hflight.running _ mem_cons_self) happlied.frame.1 hstate
      (fun _ => happlied.activated_mono) ?_ (by simp) (by simp)
    rw [hstate]
    exact hflight.tail.settle (nodup_cons.mp hflight.nodup).1 hidle

omit hs in
theorem Ordered.discarded {dropped : WorkerResult} {rest : List WorkerResult}
    (hphase : s.phase = .drain wr) (hresult : s.resultCh = dropped :: rest) :
    Ordered { s.take rest with lost := .result dropped :: s.lost } := by
  have hperm : s.busyIDs.Perm (dropped.step.id :: (s.take rest).busyIDs) := by
    rw [busyIDs]
    exact ((take_inFlightIDs hresult).append_left _).trans perm_middle
  exact ho.still rfl (ho.flight.perm hperm).tail (by simp [DriveState.take, hphase]) id

theorem Ordered.enterPark (now : ℕ) (hphase : s.phase = .drain wr) (hnone : s.inFlight = 0) :
    Ordered (s.park now wr) := by
  obtain ⟨_, _, _, hpark⟩ := enterPark_eq s.run now wr
  have hempty := hs.inFlightIDs_eq_nil hnone
  have hflight := ho.flight
  rw [busyIDs, hphase, hempty] at hflight
  have hbusy : (s.park now wr).busyIDs = [] := hempty
  rw [park, hpark] at hbusy ⊢
  refine ho.finish (hflight.running wr.step.id mem_cons_self) rfl rfl (fun _ h => h) ?_ (by simp)
    fun _ => update_self ..
  rw [hbusy]
  exact hflight.tail.settle not_mem_nil (by decide)

theorem Ordered.leavePark (hphase : s.phase = .parked) (hidle : st ≠ .running)
    {contrib stepStates child history} :
    Ordered (s.leavePark st contrib stepStates child history) := by
  have hwaiting := ho.parked hphase
  have hempty := hs.inFlightIDs_eq_nil (hs.quiet (by rw [hphase]; rfl))
  have hflight := ho.flight
  rw [busyIDs_of_held (by rw [hphase]; rfl), hempty] at hflight
  have hbusy : (s.leavePark st contrib stepStates child history).busyIDs = [] := hempty
  refine ho.update (by simp [hwaiting, Satisfied]) (ho.moved _ ?_) (fun _ => Or.inl ?_) rfl rfl
    (fun _ h => h) ?_ (by simp [DriveState.leavePark]) (by simp [DriveState.leavePark])
  · exact Or.inl (Or.inr (Or.inr hwaiting))
  · exact Or.inr (Or.inr hwaiting)
  · rw [hbusy]
    exact hflight.settle not_mem_nil hidle

theorem Ordered.scheduled (hnodup : (order s.run.wf).Nodup) {now : ℕ}
    (hstep : SchedStepped e now s t) : Ordered t := by
  cases hstep with
  | hold hphase | picked hphase | await hphase =>
    exact ho.move (by rw [hphase]; rfl) rfl (by simp) (by simp)
  | pick hphase => exact ho.pick hnodup hphase
  | dispatch id ids hphase out hout => exact ho.dispatched hs hphase hout
  | quiesce hphase hnone t hquiesced => exact ho.quiesced hs hphase hnone hquiesced
  | receive wr rest hphase hresult t hreceived => exact ho.received hphase hresult hreceived
  | discard wr dropped rest hphase hsome hresult => exact ho.discarded hphase hresult
  | park wr hphase hnone => exact ho.enterPark hs now hphase hnone

theorem Ordered.step (hnodup : (order s.run.wf).Nodup) {ev : Event} (hstep : step e s ev = some t) :
    Ordered t := by
  cases step_cases hstep with
  | sched now t hsched => exact ho.scheduled hs hnodup hsched
  | worker index act w hw t hworker =>
    have hperm := workerStepped_inFlightIDs hw hworker
    obtain ⟨_, _, _, _, _, rfl⟩ := workerStepped_eq hworker
    exact ho.still rfl (ho.flight.perm (hperm.symm.append_left _)) ho.picked id
  | cancel => exact ⟨ho.closed, ho.moved, ho.flight, ho.picked, ho.parked⟩
  | stop =>
    refine ⟨ho.closed, ho.moved, ho.flight, ?_, ho.parked⟩
    intro ids hphase
    obtain ⟨hnodup, hready⟩ := ho.picked ids hphase
    exact ⟨hnodup, fun id hid =>
      ⟨(hready id hid).deps, (hready id hid).activated, (hready id hid).idle⟩⟩
  | resolve approve memory hphase =>
    have hst : (if approve then Status.passed else .failed) ≠ .running := by
      cases approve <;> decide
    exact ho.leavePark hs hphase hst
  | wake hphase =>
    have hst : Status.pending ≠ .running := by decide
    exact ho.leavePark hs hphase hst

end Steps

/-! ## Runs -/

theorem fresh_ordered (instID : String) (wf : WorkflowConfig) (cell : SourceItem)
    (seed : List MemoryStep) (event : String → Option String) :
    Ordered { run := initDAG instID wf cell seed event } := by
  have hidle : ∀ id, ¬ Moved ((initDAG instID wf cell seed event).state id) := by
    intro id hmoved
    rw [initDAG] at hmoved
    dsimp only at hmoved
    split at hmoved <;> simp [Moved, Underway, Satisfied] at hmoved
  refine ⟨fun id h => absurd (Or.inl h) (hidle id), fun id h => absurd h (hidle id),
    ⟨nodup_nil, by simp [busyIDs, inFlightIDs, Phase.held], ?_⟩,
    by simp, by simp⟩
  exact fun id h => absurd (Or.inl (Or.inr (Or.inl h))) (hidle id)

/-- In every state of a fresh run of a valid workflow, whatever the interleaving, the
results, the parks and the loop-backs, a step that is passed, running or waiting has
its explicit dependencies passed and its sequential ones passed or skipped on their
condition. -/
theorem dependencies_hold (e : Engine) {ctx : String} {requireFor : List String}
    {wf : WorkflowConfig} (hvalid : validateWorkflow ctx requireFor wf = []) (instID : String)
    (cell : SourceItem) (seed : List MemoryStep) (event : String → Option String)
    {es : List Event} {t : DriveState}
    (hrun : exec (step e) { run := initDAG instID wf cell seed event } es = some t)
    {id : String} (hstate : t.run.state id ∈ [some .passed, some .running, some .waiting]) :
    (∀ dep ∈ (byID wf id).dependsOn, t.run.state dep = some .passed) ∧
      ∀ dep ∈ (byID wf id).seqDependsOn,
        t.run.state dep = some .passed ∨ t.run.state dep = some .condSkipped := by
  have hkept : ∀ s ev s', (WellFormed s ∧ Ordered s ∧ s.run.wf = wf) → step e s ev = some s' →
      WellFormed s' ∧ Ordered s' ∧ s'.run.wf = wf := by
    rintro s ev s' ⟨hs, ho, hwf⟩ hstep
    have hnodup : (order s.run.wf).Nodup := by
      rw [hwf]
      exact validateWorkflow_nodup hvalid
    exact ⟨hs.step hstep, ho.step hs hnodup hstep, (step_wf hstep).trans hwf⟩
  have hinit := (Initial.fresh instID wf cell seed event).started.wellFormed
  obtain ⟨-, ho, hwf⟩ := exec_invariant_of_step hkept
    ⟨hinit, fresh_ordered instID wf cell seed event, rfl⟩ hrun
  have hunderway : Underway (t.run.state id) := by simpa [Underway] using hstate
  have hdeps := ho.closed id hunderway
  rw [hwf] at hdeps
  exact depsPassed_iff.mp hdeps

/-- In every state of a fresh run, whatever the interleaving, no step is in flight twice,
every step in flight is running, and a loop that is parked or over has left no worker and
no unread result behind. -/
theorem steps_in_flight_once (e : Engine) {wf : WorkflowConfig} (hnodup : (order wf).Nodup)
    (instID : String) (cell : SourceItem) (seed : List MemoryStep)
    (event : String → Option String) {es : List Event} {t : DriveState}
    (hrun : exec (step e) { run := initDAG instID wf cell seed event } es = some t) :
    t.inFlightIDs.Nodup ∧ (∀ id ∈ t.inFlightIDs, t.run.state id = some .running) ∧
      (t.phase.driving = false → t.workers = [] ∧ t.resultCh = []) := by
  have hkept : ∀ s ev s', (WellFormed s ∧ Ordered s ∧ s.run.wf = wf) → step e s ev = some s' →
      WellFormed s' ∧ Ordered s' ∧ s'.run.wf = wf := by
    rintro s ev s' ⟨hs, ho, hwf⟩ hstep
    exact ⟨hs.step hstep, ho.step hs (hwf ▸ hnodup) hstep, (step_wf hstep).trans hwf⟩
  have hinit := (Initial.fresh instID wf cell seed event).started.wellFormed
  obtain ⟨ht, ho, -⟩ := exec_invariant_of_step hkept
    ⟨hinit, fresh_ordered instID wf cell seed event, rfl⟩ hrun
  refine ⟨ho.flight.nodup.of_append_right, ?_, fun hquiet => ?_⟩
  · exact fun id hid => ho.flight.running id (mem_append_right _ hid)
  · have hcount := ht.count
    rw [ht.quiet hquiet] at hcount
    exact ⟨length_eq_zero_iff.mp (by omega), length_eq_zero_iff.mp (by omega)⟩

/-! ## A draft under review

The draft goes through an approval and a review; a failed review starts over. -/

def draftWorkflow : WorkflowConfig where
  id := "draft"
  steps :=
    [{ id := "draft" },
     { id := "gate", type := .approval, seqDependsOn := ["draft"], approvers := ["alice"] },
     { id := "review", dependsOn := ["gate"], onFail := some { goto := "draft", maxRetries := 1 } }]

def draftStart : DriveState := { run := initDAG "wf-1" draftWorkflow {} [] fun _ => none }

/-- A step runs and reports, and the loop goes on until it has to wait. -/
def runsAlone (res : StepResult) (after : ℕ) : List Event :=
  List.replicate 4 (.sched 0) ++ runWorker 0 res ++ List.replicate after (.sched 0)

/-- The gate is approved, the review fails, and the second draft comes to its review. -/
def draftTwice : List Event :=
  runsAlone { success := true } 7 ++ [.resolve true {}] ++ runsAlone { output := "typo" } 3 ++
    runsAlone { success := true } 7 ++ [.resolve true {}] ++ List.replicate 3 (.sched 0)

theorem draftTwice_dependencies_hold :
    ∃ t, exec (step (plainEngine 2)) draftStart draftTwice = some t ∧
      t.run.state "review" = some .running ∧ t.run.state "gate" = some .passed := by
  have hvalid : validateWorkflow "draft" [] draftWorkflow = [] := by decide
  refine ⟨_, exec_get (by decide), by decide, ?_⟩
  have hreview : ((exec (step (plainEngine 2)) draftStart draftTwice).get
      (by decide)).run.state "review" ∈ [some .passed, some .running, some .waiting] := by decide
  exact (dependencies_hold (plainEngine 2) hvalid "wf-1" {} [] (fun _ => none) (exec_get _) hreview).1
    "gate" (by decide)

theorem draftTwice_in_flight_once :
    ∃ t, exec (step (plainEngine 2)) draftStart draftTwice = some t ∧
      t.inFlightIDs = ["review"] ∧ t.inFlightIDs.Nodup := by
  refine ⟨_, exec_get (by decide), by decide, ?_⟩
  exact (steps_in_flight_once (plainEngine 2) (by decide) "wf-1" {} [] (fun _ => none)
    (exec_get _)).1

end Apiary.Workflow
