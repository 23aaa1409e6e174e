import Apiary.Workflow.Closure

/-!
# What steps emit and what memory holds of it

The machine here keeps, beside the scheduler, the value that each step has most
recently reported for each field.  A report travels from the unit of a worker
through the result channel to the contribution of its step, and a loop-back that
makes a step run again removes its contribution first.  So whatever contribution a
step has in memory is what it emitted last, although memory itself is read by field
and not by step.
-/

namespace Apiary.Workflow

open Config List Option Function DagRun DriveState

variable {id : String} {u : UnitRun} {res : StepResult} {wf : WorkflowConfig} {history : List Mark}
  {c : MemoryStep} {wr : WorkerResult} {rest : List WorkerResult} {unit index : ℕ}
  {phase : UnitPhase} {o : Observed}

/-! ## The record -/

/-- The last value a step reported for a field. -/
abbrev Emissions := String → String → Option Value

def Emissions.record (em : Emissions) (id : String) (fields : Structured) : Emissions :=
  fun step field => if step = id then (fields.lookup field).or (em step field) else em step field

structure Observed where
  drive : DriveState
  emitted : Emissions := fun _ _ => none

/-- The step that reports something in an event, and its fields.  The items of a foreach
step have no name of their own; an approval reports the fields of its response. -/
def reportedBy (s : DriveState) : Event → Option (String × Structured)
  | .worker index (.finish unit res) =>
    match s.workers[index]? with
    | none => none
    | some w =>
      if w.step.type = .foreach then none
      else w.units[unit]?.map fun u => (u.step.id, res.structuredOutput)
  | .resolve _ memory => some (s.run.waitingStep, memory.structured)
  | _ => none

def Observed.step (e : Engine) (o : Observed) (ev : Event) : Option Observed :=
  (Workflow.step e o.drive ev).map fun t =>
    { drive := t
      emitted := match reportedBy o.drive ev with
        | none => o.emitted
        | some report => o.emitted.record report.1 report.2 }

/-- The fields are the last ones that the step reported. -/
def IsLast (em : Emissions) (id : String) (fields : Structured) : Prop :=
  ∀ field value, fields.lookup field = some value → em id field = some value

theorem isLast_nil (em : Emissions) (id : String) : IsLast em id [] := fun _ _ h => by cases h

theorem isLast_record (em : Emissions) (id : String) (fields : Structured) :
    IsLast (em.record id fields) id fields := by
  intro field value hvalue
  rw [Emissions.record, if_pos rfl, hvalue]
  rfl

theorem IsLast.record {em : Emissions} {fields : Structured} (hlast : IsLast em id fields)
    {other : String} (hne : id ≠ other) (report : Structured) :
    IsLast (em.record other report) id fields := by
  intro field value hvalue
  rw [Emissions.record, if_neg hne]
  exact hlast field value hvalue

/-! ## Names -/

/-- The names under which steps and group children contribute. -/
def stepNames (wf : WorkflowConfig) : List String :=
  order wf ++ (groupChildren wf).map fun child => child.1.id

def ChildOf (step : StepConfig) (id : String) : Prop :=
  step.type = .parallel ∧ ∃ child ∈ step.subSteps, child.id = id

/-- The declared step that a name belongs to: its own, or the group of a child. -/
def Owns (wf : WorkflowConfig) (owner id : String) : Prop :=
  ∃ step ∈ wf.steps, step.id = owner ∧ (id = owner ∨ ChildOf step id)

section Names

variable {wf : WorkflowConfig} {step : StepConfig} {owner other id : String}

theorem owns_self (hstep : step ∈ wf.steps) : Owns wf step.id step.id :=
  ⟨step, hstep, rfl, .inl rfl⟩

theorem owns_of_mem_order (hid : id ∈ order wf) : Owns wf id id := by
  obtain ⟨step, hstep, rfl⟩ := List.mem_map.mp hid
  exact owns_self hstep

theorem ChildOf.owns (hchild : ChildOf step id) (hstep : step ∈ wf.steps) : Owns wf step.id id :=
  ⟨step, hstep, rfl, .inr hchild⟩

theorem ChildOf.mem_groupChildren (hchild : ChildOf step id) (hstep : step ∈ wf.steps) :
    ∃ child, child.id = id ∧ (child, step.id) ∈ groupChildren wf := by
  obtain ⟨htype, child, hmem, hid⟩ := hchild
  exact ⟨child, hid, Workflow.mem_groupChildren hstep htype hmem⟩

theorem ChildOf.not_mem_order (hnames : (stepNames wf).Nodup) (hchild : ChildOf step id)
    (hstep : step ∈ wf.steps) : id ∉ order wf := by
  obtain ⟨child, rfl, hmem⟩ := hchild.mem_groupChildren hstep
  intro hid
  exact disjoint_of_nodup_append hnames hid (List.mem_map.mpr ⟨_, hmem, rfl⟩)

/-- A name belongs to one step. -/
theorem Owns.unique (hnames : (stepNames wf).Nodup) (howns : Owns wf owner id)
    (hother : Owns wf other id) : owner = other := by
  obtain ⟨step, hstep, rfl, hid⟩ := howns
  obtain ⟨step', hstep', rfl, hid'⟩ := hother
  rcases hid with rfl | hchild
  · rcases hid' with heq | hchild'
    · exact heq
    · exact absurd (mem_order hstep) (hchild'.not_mem_order hnames hstep')
  · rcases hid' with rfl | hchild'
    · exact absurd (mem_order hstep') (hchild.not_mem_order hnames hstep)
    · obtain ⟨child, hname, hmem⟩ := hchild.mem_groupChildren hstep
      obtain ⟨child', hname', hmem'⟩ := hchild'.mem_groupChildren hstep'
      have hpair := inj_on_of_nodup_map (Nodup.of_append_right hnames) hmem hmem'
        (hname.trans hname'.symm)
      exact (Prod.mk.inj hpair).2

theorem owns_of_mem_stepNames (hid : id ∈ stepNames wf) : ∃ owner, Owns wf owner id := by
  rcases mem_append.mp hid with hid | hid
  · exact ⟨id, owns_of_mem_order hid⟩
  · obtain ⟨⟨child, parent⟩, hmem, rfl⟩ := List.mem_map.mp hid
    obtain ⟨step, hstep, hpair⟩ := mem_flatMap.mp hmem
    obtain ⟨hstep, htype⟩ := mem_filter.mp hstep
    obtain ⟨sub, hsub, heq⟩ := List.mem_map.mp hpair
    cases heq
    exact ⟨step.id, ChildOf.owns ⟨of_decide_eq_true htype, child, hsub, rfl⟩ hstep⟩

theorem stepNames_order (hnames : (stepNames wf).Nodup) : (order wf).Nodup :=
  Nodup.of_append_left hnames

theorem Worker.Of.owns {w : Worker} (hw : w.Of wf) (htype : w.step.type ≠ .foreach)
    (hu : u ∈ w.units) : Owns wf w.step.id u.step.id := by
  have hunit := hw.units u hu
  rw [UnitOf] at hunit
  split at hunit
  · rename_i hparallel
    exact ChildOf.owns ⟨hparallel, u.step, hunit, rfl⟩ hw.declared
  · exact absurd ‹_› htype
  · rw [hunit]
    exact owns_self hw.declared

end Names

/-! ## The invariant -/

/-- A step that has ended. -/
def Resting (st : Option Status) : Prop := st = some .passed ∨ st = some .failed

/-- What the units of a worker have reported; a unit that has not is not kept from an
earlier pass. -/
structure WorkerTracked (kept : String → Option (String → Option StepResult)) (em : Emissions)
    (w : Worker) : Prop where
  distinct : (w.units.map fun u => u.step.id).Nodup
  finished : ∀ u ∈ w.units, ∀ res, u.phase = .finished res →
    IsLast em u.step.id res.structuredOutput
  unfinished : ∀ u ∈ w.units, (∀ res, u.phase ≠ .finished res) →
    ∀ done, kept w.step.id = some done → done u.step.id = none

structure ResultTracked (em : Emissions) (wr : WorkerResult) : Prop where
  own : IsLast em wr.step.id wr.res.structuredOutput
  contribs : ∀ c ∈ wr.parallelContribs, ChildOf wr.step c.stepID ∧ IsLast em c.stepID c.structured
  kept : ∀ id res, wr.parallel.done id = some res →
    ChildOf wr.step id ∧ IsLast em id res.structuredOutput

structure Tracked (s : DriveState) (em : Emissions) : Prop where
  contrib : ∀ owner id c, Owns s.run.wf owner id → s.run.contrib id = some c →
    Resting (s.run.state owner) ∧ s.run.activated owner = true ∧ IsLast em id c.structured
  workers : ∀ w ∈ s.workers, w.step.type ≠ .foreach → WorkerTracked s.run.parallelDone em w
  results : ∀ wr ∈ s.resultCh, ResultTracked em wr
  draining : ∀ wr, s.phase = .drain wr → ResultTracked em wr
  kept : ∀ owner done id res, s.run.parallelDone owner = some done → done id = some res →
    (∃ step ∈ s.run.wf.steps, step.id = owner ∧ ChildOf step id) ∧ IsLast em id res.structuredOutput
  parked : s.phase = .parked → s.run.waitingStep ∈ order s.run.wf

section Steps

variable {e : Engine} {s t : DriveState} {em : Emissions}

/-- A step that leaves memory, the workers and the kept results alone, and every ended step
where it is. -/
theorem Tracked.frame (ht : Tracked s em) (hwf : t.run.wf = s.run.wf)
    (hcontrib : t.run.contrib = s.run.contrib)
    (hstate : ∀ id, Resting (s.run.state id) → s.run.activated id = true → Resting (t.run.state id))
    (hactivated : ∀ id, s.run.activated id = true → t.run.activated id = true)
    (hkept : t.run.parallelDone = s.run.parallelDone)
    (hworkers : ∀ w ∈ t.workers, w.step.type ≠ .foreach → WorkerTracked t.run.parallelDone em w)
    (hresults : ∀ wr ∈ t.resultCh, ResultTracked em wr)
    (hdraining : ∀ wr, t.phase = .drain wr → ResultTracked em wr)
    (hparked : t.phase = .parked → t.run.waitingStep ∈ order s.run.wf) : Tracked t em where
  contrib := by
    intro owner id c howns hc
    rw [hwf] at howns
    rw [hcontrib] at hc
    obtain ⟨hresting, hactive, hlast⟩ := ht.contrib owner id c howns hc
    exact ⟨hstate owner hresting hactive, hactivated owner hactive, hlast⟩
  workers := hworkers
  results := hresults
  draining := hdraining
  kept := by
    rw [hwf, hkept]
    exact ht.kept
  parked := by
    rw [hwf]
    exact hparked

/-- The loop moves and nothing else. -/
theorem Tracked.move (ht : Tracked s em) {phase : Phase} (hdrain : ∀ wr, phase ≠ .drain wr)
    (hparked : phase ≠ .parked) : Tracked { s with phase := phase } em :=
  ht.frame rfl rfl (fun _ h _ => h) (fun _ h => h) rfl ht.workers ht.results
    (fun wr h => absurd h (hdrain wr)) (fun h => absurd h hparked)

theorem resultTracked_bare (em : Emissions) (step : StepConfig) (hres : res.structuredOutput = []) :
    ResultTracked em { step := step, res := res } where
  own := by
    rw [hres]
    exact isLast_nil em step.id
  contribs := by simp
  kept := by simp

theorem Tracked.launched (ht : Tracked s em) (hnames : (stepNames s.run.wf).Nodup)
    {step : StepConfig} (hstep : step ∈ s.run.wf.steps) (htype : step.type ≠ .foreach) :
    WorkerTracked s.run.parallelDone em (launch s.run step) := by
  rw [launch]
  split
  · rename_i hparallel
    refine ⟨?_, ?_, ?_⟩
    · rw [List.map_map, map_congr_left (g := StepConfig.id)]
      · exact subSteps_nodup (Nodup.of_append_right hnames) hstep hparallel
      · intro child _
        dsimp only [Function.comp]
        split <;> rfl
    · intro u hu res hres
      obtain ⟨child, -, rfl⟩ := List.mem_map.mp hu
      split at hres
      · rename_i hkept
        obtain ⟨kept, hsome, hdone⟩ := bind_eq_some_iff.mp hkept
        cases hres
        simpa only [hkept] using (ht.kept step.id kept child.id res hsome hdone).2
      · cases hres
    · intro u hu hrunning done hdone
      obtain ⟨child, -, rfl⟩ := List.mem_map.mp hu
      dsimp only at hdone
      split at hrunning
      · exact absurd rfl (hrunning _)
      · rename_i hkept
        rw [hdone, bind_some] at hkept
        simp only [hkept]
  · exact absurd ‹_› htype
  · refine ⟨nodup_singleton _, ?_, ?_⟩
    · intro u hu res hres
      rw [mem_singleton.mp hu] at hres
      cases hres
    · intro u hu _ done hdone
      rw [mem_singleton.mp hu]
      cases hkept : done step.id with
      | none => rfl
      | some res =>
        obtain ⟨⟨group, hgroup, -, hchild⟩, -⟩ := ht.kept _ done _ res hdone hkept
        exact absurd (mem_order hstep) (hchild.not_mem_order hnames hgroup)

section

variable (ht : Tracked s em)

include ht

theorem Tracked.dispatched (hs : WellFormed s) (ho : Ordered s)
    (hnames : (stepNames s.run.wf).Nodup) {ids : List String}
    (hphase : s.phase = .dispatch (id :: ids)) {out : DriveState × Bool}
    (hout : Dispatched s (byID s.run.wf id) id out) :
    Tracked { out.1 with phase := if out.2 then .check else .dispatch ids } em := by
  have hid : id ∈ order s.run.wf := hs.picked _ hphase mem_cons_self
  have hidle : ¬Resting (s.run.state id) := by
    rcases ((ho.picked _ hphase).2 id mem_cons_self).idle with h | h <;> simp [h, Resting]
  -- an ended step is not the one that is dispatched
  have hupdate : ∀ st other, Resting (s.run.state other) → s.run.activated other = true →
      Resting (Function.update s.run.state id (some st) other) := by
    intro st other hresting _
    have hne : other ≠ id := fun heq => hidle (heq ▸ hresting)
    rwa [update_of_ne hne]
  cases hout with
  | errored | asked =>
    refine ht.frame rfl rfl (hupdate _) (fun _ h => h) rfl ht.workers ?_ (by simp) (by simp)
    exact Table.forall_insert ht.results (resultTracked_bare em _ rfl)
  | condSkipped =>
    exact ht.frame rfl rfl (hupdate _) (fun _ h => h) rfl ht.workers ht.results (by simp)
      (by simp)
  | routed chosen =>
    obtain ⟨state, hskips, heq⟩ := routeSplit_eq s.run (byID s.run.wf id) chosen
    rw [byID_id hid] at hskips
    dsimp only
    rw [heq]
    refine ht.frame rfl rfl ?_ (fun _ h => by simp [h]) rfl ht.workers ht.results (by simp)
      (by simp)
    intro other hresting hactive
    have hkept := hupdate .passed other hresting hactive
    rcases hskips other with hsame | ⟨-, hpending | hfree⟩
    · dsimp only
      rwa [hsame]
    · rw [hpending] at hkept
      simp [Resting] at hkept
    · nomatch hactive.symm.trans hfree.2
  | full => exact ht.move (by simp) (by simp)
  | spawned =>
    refine ht.frame rfl rfl (hupdate _) (fun _ h => h) rfl ?_ ht.results (by simp) (by simp)
    refine Table.forall_insert ht.workers ?_
    rw [launch_step]
    exact ht.launched hnames (byID_mem hid)

theorem Tracked.reset (hnodup : (order s.run.wf).Nodup) (target : String) (hnone : s.workers = []) :
    Tracked
      { s with
        run := s.run.resetLoop target
        history := history
        loopTarget := ""
        phase := .top } em := by
  refine ⟨?_, ?_, ht.results, by simp, ht.kept, by simp⟩
  · intro owner id c howns hc
    change (if id ∈ clearedContribs s.run.wf target then none else s.run.contrib id) = some c at hc
    obtain ⟨hcleared, hc⟩ := ite_none_left_eq_some.mp hc
    obtain ⟨hresting, hactive, hlast⟩ := ht.contrib owner id c howns hc
    have hout : owner ∉ resetSet s.run.wf target := by
      intro hin
      apply hcleared
      obtain ⟨step, hstep, rfl, hid⟩ := howns
      refine mem_flatMap.mpr ⟨step.id, hin, ?_⟩
      rcases hid with rfl | ⟨-, child, hchild, rfl⟩
      · exact mem_cons_self
      · rw [byID_of_nodup hnodup hstep]
        exact mem_cons_of_mem _ (List.mem_map.mpr ⟨child, hchild, rfl⟩)
    refine ⟨?_, hactive, hlast⟩
    change Resting (if owner ∈ resetSet s.run.wf target then _ else _)
    rwa [if_neg hout]
  · rw [hnone]
    simp

theorem Tracked.quiesced (hs : WellFormed s) (hnodup : (order s.run.wf).Nodup)
    (hnone : s.inFlight = 0) (hquiesced : Quiesced s t) : Tracked t em := by
  cases hquiesced with
  | reset => exact ht.reset hnodup _ (hs.drained hnone).1
  | skipped =>
    refine ht.frame rfl rfl ?_ (fun _ h => h) rfl ht.workers ht.results (by simp) (by simp)
    intro id hresting _
    rcases skipUnreachable_skips s.run id with hsame | ⟨-, hpending | hfalse⟩
    · dsimp only
      rwa [hsame]
    · rw [hpending] at hresting
      simp [Resting] at hresting
    · exact hfalse.elim
  | stopped | failed | again | ended => exact ht.move (by simp) (by simp)

omit ht in
theorem foldl_contribs_eq_some {contribs : List MemoryStep} {contrib : String → Option MemoryStep}
    (hc : (contribs.foldl (fun (m : String → Option MemoryStep) c =>
      Function.update m c.stepID (some c)) contrib) id = some c) :
    (c ∈ contribs ∧ c.stepID = id) ∨ contrib id = some c := by
  induction contribs generalizing contrib with
  | nil => exact .inr hc
  | cons first contribs ih =>
    rw [foldl_cons] at hc
    rcases ih hc with ⟨hmem, hid⟩ | hold
    · exact .inl ⟨mem_cons_of_mem _ hmem, hid⟩
    · by_cases heq : id = first.stepID
      · subst heq
        rw [update_self, some.injEq] at hold
        exact .inl ⟨hold ▸ mem_cons_self, by rw [hold]⟩
      · rw [update_of_ne heq] at hold
        exact .inr hold

omit ht in
/-- The contributions of a step that passes are what it reported. -/
theorem ResultTracked.mergeContribs (hwr : ResultTracked em wr) (hdeclared : wr.step ∈ wf.steps)
    {r : DagRun} (hc : r.mergeContribs wr wr.res id = some c) :
    (Owns wf wr.step.id id ∧ IsLast em id c.structured) ∨ r.contrib id = some c := by
  rw [DagRun.mergeContribs] at hc
  split at hc
  · rcases foldl_contribs_eq_some hc with ⟨hmem, rfl⟩ | hold
    · obtain ⟨hchild, hlast⟩ := hwr.contribs c hmem
      exact .inl ⟨hchild.owns hdeclared, hlast⟩
    · exact .inr hold
  · by_cases heq : id = wr.step.id
    · subst heq
      rw [update_self, some.injEq] at hc
      subst hc
      exact .inl ⟨owns_self hdeclared, hwr.own⟩
    · rw [update_of_ne heq] at hc
      exact .inr hc

omit ht in
theorem ResultTracked.applied (hwr : ResultTracked em wr) (hdeclared : wr.step ∈ s.run.wf.steps)
    (happlied : Applied e s wr t) (hc : t.run.contrib id = some c) :
    (Resting (t.run.state wr.step.id) ∧ Owns s.run.wf wr.step.id id ∧ IsLast em id c.structured) ∨
      s.run.contrib id = some c := by
  cases happlied.effect with
  | passed hsuccess hstate hcontrib =>
    rw [hcontrib, (gated_success hsuccess).2.2] at hc
    exact (hwr.mergeContribs hdeclared hc).imp_left fun hown => ⟨.inl (by simp [hstate]), hown⟩
  | refused st hst hsuccess hstate hcontrib => exact .inr (hcontrib ▸ hc)

theorem Tracked.applied (hnames : (stepNames s.run.wf).Nodup) (hwr : ResultTracked em wr)
    (hdeclared : wr.step ∈ s.run.wf.steps) (hrunning : s.run.state wr.step.id = some .running)
    (hactive : s.run.activated wr.step.id = true) (happlied : Applied e s wr t) : Tracked t em := by
  obtain ⟨hwf, -⟩ := happlied.frame
  have hclose := happlied.closes
  obtain ⟨st, -, hstate⟩ := happlied.state_eq
  obtain ⟨_, _, _, rfl⟩ := happlied.eq
  refine ⟨?_, ?_, ht.results, by simp, ?_, by simp⟩
  · intro owner id c howns hc
    rw [hwf] at howns
    rcases hwr.applied hdeclared happlied hc with ⟨hresting, hown, hlast⟩ | hold
    · obtain rfl := howns.unique hnames hown
      exact ⟨hresting, happlied.activated_mono hactive, hlast⟩
    · obtain ⟨hresting, hactive, hlast⟩ := ht.contrib owner id c howns hold
      have hne : owner ≠ wr.step.id := by
        rintro rfl
        simp [hrunning, Resting] at hresting
      rw [hstate, update_of_ne hne]
      exact ⟨hresting, happlied.activated_mono hactive, hlast⟩
  · intro w hw htype
    have htracked := ht.workers w hw htype
    exact ⟨htracked.distinct, htracked.finished, fun u hu hrunning done hdone =>
      htracked.unfinished u hu hrunning done (hclose.kept_of hdone)⟩
  · rw [hwf]
    exact fun owner done id res hdone => ht.kept owner done id res (hclose.kept_of hdone)

theorem Tracked.take (hresult : s.resultCh = wr :: rest) : Tracked (s.take rest) em :=
  ht.frame rfl rfl (fun _ h _ => h) (fun _ h => h) rfl ht.workers
    (fun wr' hwr' => ht.results wr' (hresult ▸ mem_cons_of_mem _ hwr')) ht.draining ht.parked

theorem Tracked.received (hs : WellFormed s) (ho : Ordered s) (hnames : (stepNames s.run.wf).Nodup)
    (hresult : s.resultCh = wr :: rest) (hreceived : Received e (s.take rest) wr t) :
    Tracked t em := by
  have hmem : wr ∈ s.resultCh := hresult ▸ mem_cons_self
  have htake := ht.take hresult
  have hwr := ht.results wr hmem
  cases hreceived with
  | dropped =>
    exact htake.frame rfl rfl (fun _ h _ => h) (fun _ h => h) rfl htake.workers htake.results
      (by simp) (by simp)
  | parking =>
    refine htake.frame rfl rfl (fun _ h _ => h) (fun _ h => h) rfl htake.workers htake.results
      ?_ (by simp)
    intro wr' hwr'
    cases hwr'
    exact hwr
  | applied hstopped hparks t happlied =>
    have hbusy : wr.step.id ∈ s.busyIDs := by
      refine mem_append_right _ (mem_append_right _ ?_)
      exact List.mem_map.mpr ⟨wr, hmem, rfl⟩
    have hrunning := ho.flight.running _ hbusy
    exact htake.applied hnames hwr (hs.results wr hmem) hrunning
      (ho.flight.activated _ hrunning) happlied

theorem Tracked.park (hs : WellFormed s) (ho : Ordered s) (now : ℕ) (hphase : s.phase = .drain wr)
    (hnone : s.inFlight = 0) : Tracked (s.park now wr) em := by
  obtain ⟨_, _, _, hpark⟩ := enterPark_eq s.run now wr
  rw [DriveState.park, hpark]
  have hdeclared := hs.draining wr hphase
  have hrunning : s.run.state wr.step.id = some .running := by
    apply ho.flight.running
    rw [busyIDs, hphase]
    exact mem_cons_self
  refine ⟨?_, ?_, ht.results, by simp, ?_, fun _ => mem_order hdeclared⟩
  · intro owner id c howns hc
    obtain ⟨hresting, hactive, hlast⟩ := ht.contrib owner id c howns hc
    have hne : owner ≠ wr.step.id := by
      rintro rfl
      simp [hrunning, Resting] at hresting
    refine ⟨?_, hactive, hlast⟩
    dsimp only
    rwa [update_of_ne hne]
  · dsimp only
    rw [(hs.drained hnone).1]
    simp
  · intro owner done id res hdone hid
    dsimp only at hdone
    split at hdone
    · by_cases heq : owner = wr.step.id
      · rw [heq, update_self, some.injEq] at hdone
        subst hdone
        obtain ⟨hchild, hlast⟩ := (ht.draining wr hphase).kept id res hid
        exact ⟨⟨wr.step, hdeclared, heq.symm, hchild⟩, hlast⟩
      · rw [update_of_ne heq] at hdone
        exact ht.kept owner done id res hdone hid
    · exact ht.kept owner done id res hdone hid

theorem Tracked.scheduled (hs : WellFormed s) (ho : Ordered s) (hnames : (stepNames s.run.wf).Nodup)
    {now : ℕ} (hstep : SchedStepped e now s t) : Tracked t em := by
  cases hstep with
  | hold | pick | picked | await => exact ht.move (by simp) (by simp)
  | dispatch id ids hphase out hout => exact ht.dispatched hs ho hnames hphase hout
  | quiesce hphase hnone t hquiesced =>
    exact ht.quiesced hs (stepNames_order hnames) hnone hquiesced
  | receive wr rest hphase hresult t hreceived => exact ht.received hs ho hnames hresult hreceived
  | discard wr dropped rest hphase hsome hresult =>
    have htake := ht.take hresult
    exact htake.frame rfl rfl (fun _ h _ => h) (fun _ h => h) rfl htake.workers htake.results
      htake.draining htake.parked
  | park wr hphase hnone => exact ht.park hs ho now hphase hnone

end

/-! ## Steps of workers -/

variable {kept : String → Option (String → Option StepResult)} {w : Worker}

theorem WorkerTracked.setUnit (hw : WorkerTracked kept em w) (hunit : w.units[unit]? = some u)
    (hrunning : ∀ res, u.phase ≠ .finished res) {em' : Emissions}
    (hother : ∀ id fields, id ≠ u.step.id → IsLast em id fields → IsLast em' id fields)
    (hphase : ∀ res, phase = .finished res → IsLast em' u.step.id res.structuredOutput) :
    WorkerTracked kept em' (w.setUnit unit phase) where
  distinct := by
    have hids := congrArg (List.map StepConfig.id) (setUnit_steps w unit phase)
    rw [List.map_map, List.map_map] at hids
    exact (congrArg Nodup hids).mpr hw.distinct
  finished := by
    intro u' hu' res hres
    rcases mem_setUnit hunit hu' with rfl | ⟨other, hne, hu'⟩
    · exact hphase res hres
    · exact hother _ _ (fun hid => hne (Table.index_of_key hw.distinct hu' hunit hid))
        (hw.finished u' (mem_of_getElem? hu') res hres)
  unfinished := by
    intro u' hu' hrunning' done hdone
    rcases mem_setUnit hunit hu' with rfl | ⟨other, hne, hu'⟩
    · exact hw.unfinished u (mem_of_getElem? hunit) hrunning done hdone
    · exact hw.unfinished u' (mem_of_getElem? hu') hrunning' done hdone

theorem joinParallel_tracked (e : Engine) (cell : SourceItem) {results : List ChildResult}
    (hresults : ∀ cr ∈ results, ChildOf w.step cr.1.id ∧ IsLast em cr.1.id cr.2.structuredOutput) :
    ResultTracked em (joinParallel e cell w results) := by
  have hcontribs : ∀ c ∈ childContribs results,
      ChildOf w.step c.stepID ∧ IsLast em c.stepID c.structured := by
    intro c hc
    obtain ⟨cr, hcr, rfl⟩ := List.mem_map.mp hc
    exact hresults cr (mem_filter.mp hcr).1
  have hkept : ∀ id res, (parallelState results).done id = some res →
      ChildOf w.step id ∧ IsLast em id res.structuredOutput := by
    intro id res hdone
    obtain ⟨child, hmem, rfl, -⟩ := parallelState_done hdone
    exact hresults _ hmem
  have hjoined := joinParallel_joined e cell w results
  generalize joinParallel e cell w results = wr at hjoined ⊢
  cases hjoined with
  | empty => exact resultTracked_bare em w.step rfl
  | passed => exact ⟨isLast_nil em _, hcontribs, hkept⟩
  | waiting | failed => exact ⟨isLast_nil em _, by simp, hkept⟩

/-- A worker delivers what its units reported. -/
theorem result_tracked (e : Engine) (cell : SourceItem) (hof : w.Of wf)
    (hw : w.step.type ≠ .foreach → WorkerTracked kept em w) :
    ResultTracked em (w.result e cell) := by
  rw [Worker.result]
  split
  · rename_i htype
    have hw := hw (by simp [htype])
    apply joinParallel_tracked
    rintro ⟨child, res⟩ hcr
    obtain ⟨u, hu, rfl, hphase⟩ := (mem_childResults (w := w)).mp hcr
    have hunit := hof.units u hu
    simp only [UnitOf, htype] at hunit
    exact ⟨⟨htype, u.step, hunit, rfl⟩, hw.finished u hu _ hphase⟩
  · split
    · exact resultTracked_bare em w.step rfl
    · exact ⟨isLast_nil em _, by simp [foreachStepResult], by simp [foreachStepResult]⟩
  · rename_i hparallel hforeach
    have hw := hw hforeach
    refine ⟨?_, by simp, by simp⟩
    cases hres : w.units.findSome? UnitRun.result? with
    | none => exact isLast_nil em _
    | some res =>
      obtain ⟨u, hu, hresult⟩ := exists_of_findSome?_eq_some hres
      have hself := (hof.units u hu).eq_owner hparallel hforeach
      exact hself ▸ hw.finished u hu res (result?_eq_some.mp hresult)

/-- Nothing that another step has reported is affected by a report. -/
theorem ResultTracked.record (hwr : ResultTracked em wr) (hdeclared : wr.step ∈ wf.steps)
    (hother : ¬Owns wf wr.step.id id) (fields : Structured) :
    ResultTracked (em.record id fields) wr := by
  have hne : ∀ name, Owns wf wr.step.id name → name ≠ id := fun name h heq => hother (heq ▸ h)
  refine ⟨hwr.own.record (hne _ (owns_self hdeclared)) fields, ?_, ?_⟩
  · intro c hc
    obtain ⟨hchild, hlast⟩ := hwr.contribs c hc
    exact ⟨hchild, hlast.record (hne _ (hchild.owns hdeclared)) fields⟩
  · intro name res hdone
    obtain ⟨hchild, hlast⟩ := hwr.kept name res hdone
    exact ⟨hchild, hlast.record (hne _ (hchild.owns hdeclared)) fields⟩

theorem WorkerTracked.record (hw : WorkerTracked kept em w) (hof : w.Of wf)
    (htype : w.step.type ≠ .foreach) (hother : ¬Owns wf w.step.id id) (fields : Structured) :
    WorkerTracked kept (em.record id fields) w := by
  refine ⟨hw.distinct, fun u hu res hres => ?_, hw.unfinished⟩
  refine (hw.finished u hu res hres).record (fun heq => hother ?_) fields
  exact heq ▸ hof.owns htype hu

theorem finalResult_structured (w : Worker) (u : UnitRun) (row : ℕ) (res : StepResult) :
    (w.finalResult u row res).structuredOutput = res.structuredOutput := by
  have hown : (w.unitResult u row res).structuredOutput = res.structuredOutput := by
    rw [Worker.unitResult]
    split <;> rfl
  rw [Worker.finalResult, applyMissingOutput, ← hown]
  repeat' split
  all_goals rfl

theorem startUnit_structured (hphase : (s.startUnit w u).2 = .finished res) :
    res.structuredOutput = [] := by
  rw [startUnit] at hphase
  split_ifs at hphase
  cases hphase
  rfl

/-- The steps in flight at two places are different. -/
theorem Ordered.other_worker (ho : Ordered s) {other : ℕ} {v : Worker}
    (hw : s.workers[index]? = some w) (hv : s.workers[other]? = some v) (hne : other ≠ index) :
    v.step.id ≠ w.step.id := by
  intro hid
  have hnodup : (s.workers.map fun w => w.step.id).Nodup :=
    Nodup.of_append_left (Nodup.of_append_right ho.flight.nodup)
  exact hne (Table.index_of_key hnodup hv hw hid)

theorem Ordered.other_result (ho : Ordered s) (hw : w ∈ s.workers) (hwr : wr ∈ s.resultCh) :
    wr.step.id ≠ w.step.id := by
  intro hid
  have hnodup : s.inFlightIDs.Nodup := Nodup.of_append_right ho.flight.nodup
  exact disjoint_of_nodup_append hnodup (List.mem_map.mpr ⟨w, hw, rfl⟩)
    (List.mem_map.mpr ⟨wr, hwr, hid⟩)

theorem Ordered.other_held (ho : Ordered s) (hw : w ∈ s.workers) (hphase : s.phase = .drain wr) :
    wr.step.id ≠ w.step.id := by
  intro hid
  refine disjoint_of_nodup_append ho.flight.nodup (a := wr.step.id) ?_ ?_
  · rw [hphase]
    exact mem_cons_self
  · rw [hid]
    exact mem_append_left _ (List.mem_map.mpr ⟨w, hw, rfl⟩)

variable (ht : Tracked s em)

include ht

theorem Tracked.finished (hs : WellFormed s) (ho : Ordered s) (hnames : (stepNames s.run.wf).Nodup)
    (hw : s.workers[index]? = some w) (htype : w.step.type ≠ .foreach)
    (hunit : w.units[unit]? = some u) (hrunning : ∀ res, u.phase ≠ .finished res)
    (own : StepResult) (rows : List StepRun) :
    Tracked { s with
      workers := s.workers.set index (w.setUnit unit (.finished own)), rows := rows }
      (em.record u.step.id own.structuredOutput) := by
  have hmem := mem_of_getElem? hw
  have hof := hs.workers w hmem
  have howns : Owns s.run.wf w.step.id u.step.id := hof.owns htype (mem_of_getElem? hunit)
  have hflying : s.run.state w.step.id = some .running := by
    apply ho.flight.running
    exact mem_append_right _ (mem_append_left _ (List.mem_map.mpr ⟨w, hmem, rfl⟩))
  have hother : ∀ owner, owner ≠ w.step.id → ¬Owns s.run.wf owner u.step.id :=
    fun owner hne h => hne (h.unique hnames howns)
  have htracked := ht.workers w hmem htype
  constructor
  · intro owner id c howner hc
    obtain ⟨hresting, hactive, hlast⟩ := ht.contrib owner id c howner hc
    refine ⟨hresting, hactive, hlast.record ?_ _⟩
    rintro rfl
    rw [howner.unique hnames howns, hflying] at hresting
    simp [Resting] at hresting
  · intro v hv hvtype
    rcases Table.mem_set hv with rfl | ⟨other, hne, hv⟩
    · refine htracked.setUnit hunit hrunning (fun id fields hid hlast => hlast.record hid _) ?_
      intro res hres
      cases hres
      exact isLast_record em _ _
    · have hvmem := mem_of_getElem? hv
      exact (ht.workers v hvmem hvtype).record (hs.workers v hvmem) hvtype
        (hother _ (ho.other_worker hw hv hne)) _
  · intro wr hwr
    exact (ht.results wr hwr).record (hs.results wr hwr) (hother _ (ho.other_result hmem hwr)) _
  · intro wr hdrain
    exact (ht.draining wr hdrain).record (hs.draining wr hdrain)
      (hother _ (ho.other_held hmem hdrain)) _
  · intro owner done id res hdone hid
    obtain ⟨⟨step, hstep, hname, hchild⟩, hlast⟩ := ht.kept owner done id res hdone hid
    refine ⟨⟨step, hstep, hname, hchild⟩, hlast.record ?_ _⟩
    rintro rfl
    -- a child that is kept was replayed, and this one was running
    obtain rfl : owner = w.step.id := hname ▸ (hchild.owns hstep).unique hnames howns
    rw [htracked.unfinished u (mem_of_getElem? hunit) hrunning done hdone] at hid
    cases hid
  · exact ht.parked

/-- A unit goes on without reporting anything under a name. -/
theorem Tracked.advanced (hw : s.workers[index]? = some w) (hunit : w.units[unit]? = some u)
    (hrunning : ∀ res, u.phase ≠ .finished res) (phase : UnitPhase)
    (hphase : w.step.type ≠ .foreach → ∀ res, phase = .finished res → res.structuredOutput = [])
    (rows : List StepRun) (nextRow : ℕ) (history) :
    Tracked { s with
      workers := s.workers.set index (w.setUnit unit phase)
      rows := rows, nextRow := nextRow, history := history } em := by
  refine ht.frame rfl rfl (fun _ h _ => h) (fun _ h => h) rfl ?_ ht.results ht.draining ht.parked
  intro v hv hvtype
  rcases Table.mem_set hv with rfl | ⟨other, -, hv⟩
  · refine (ht.workers w (mem_of_getElem? hw) hvtype).setUnit hunit hrunning
      (fun _ _ _ hlast => hlast) ?_
    intro res hres
    rw [hphase hvtype res hres]
    exact isLast_nil em _
  · exact ht.workers v (mem_of_getElem? hv) hvtype

theorem Tracked.worked (hs : WellFormed s) (ho : Ordered s) (hnames : (stepNames s.run.wf).Nodup)
    {act : WorkerAct} (hw : s.workers[index]? = some w) (hworker : WorkerStepped e s index w act t) :
    Tracked t (match reportedBy s (.worker index act) with
      | none => em
      | some report => em.record report.1 report.2) := by
  cases hworker with
  | spawn unit u hunit hphase =>
    exact ht.advanced hw hunit (by simp [hphase]) .spawned (by simp) ..
  | start unit u hunit hphase =>
    obtain ⟨rows, nextRow, history, heq⟩ := startUnit_eq s w u
    rw [heq]
    exact ht.advanced hw hunit (by simp [hphase]) (s.startUnit w u).2
      (fun _ res h => startUnit_structured h) rows nextRow history
  | finish unit u row res hunit hphase =>
    obtain ⟨rows, heq⟩ := finishUnit_eq s w u row res
    rw [heq, finishUnit_phase]
    by_cases htype : w.step.type = .foreach
    · simp only [reportedBy, hw, htype, if_true]
      exact ht.advanced hw hunit (by simp [hphase]) _ (fun h => absurd htype h) rows ..
    · simp only [reportedBy, hw, htype, if_false, hunit, map_some]
      rw [← finalResult_structured w u row res]
      exact ht.finished hs ho hnames hw htype hunit (by simp [hphase]) _ rows
  | deliver =>
    have hmem := mem_of_getElem? hw
    refine ht.frame rfl rfl (fun _ h _ => h) (fun _ h => h) rfl ?_ ?_ ht.draining ht.parked
    · exact fun v hv => ht.workers v (mem_of_mem_eraseIdx hv)
    · exact Table.forall_insert ht.results
        (result_tracked e _ (hs.workers w hmem) (ht.workers w hmem))

/-! ## Resumed runs -/

theorem Tracked.resolved (hs : WellFormed s) (ho : Ordered s) (hnames : (stepNames s.run.wf).Nodup)
    (hphase : s.phase = .parked) (approve : Bool) (memory : ApprovalMemory) :
    Tracked
      { s with
        run := s.run.resolveApproval approve memory
        phase := .top
        ctxErr := none
        history := history }
      (em.record s.run.waitingStep memory.structured) := by
  have hwaiting := ho.parked hphase
  have hid := ht.parked hphase
  obtain ⟨hworkers, hresults⟩ := hs.drained (hs.quiet (by rw [hphase]; rfl))
  refine ⟨?_, by simp [hworkers], by simp [hresults], by simp, ?_, by simp⟩
  · intro owner id c howns hc
    change Function.update s.run.contrib s.run.waitingStep _ id = some c at hc
    change Resting (Function.update s.run.state s.run.waitingStep _ owner) ∧ _
    by_cases heq : id = s.run.waitingStep
    · subst heq
      rw [update_self, some.injEq] at hc
      obtain rfl := howns.unique hnames (owns_of_mem_order hid)
      rw [update_self, ← hc]
      refine ⟨?_, ho.moved _ (.inl (.inr (.inr hwaiting))), isLast_record em _ _⟩
      cases approve
      · exact .inr rfl
      · exact .inl rfl
    · rw [update_of_ne heq] at hc
      obtain ⟨hresting, hactive, hlast⟩ := ht.contrib owner id c howns hc
      have hne : owner ≠ s.run.waitingStep := by
        rintro rfl
        simp [hwaiting, Resting] at hresting
      rw [update_of_ne hne]
      exact ⟨hresting, hactive, hlast.record heq _⟩
  · intro owner done id res hdone hkept
    obtain ⟨⟨step, hstep, hname, hchild⟩, hlast⟩ := ht.kept owner done id res hdone hkept
    refine ⟨⟨step, hstep, hname, hchild⟩, hlast.record ?_ _⟩
    rintro rfl
    exact hchild.not_mem_order hnames hstep hid

theorem Tracked.woken (ho : Ordered s) (hphase : s.phase = .parked) :
    Tracked { s with run := s.run.rearm, phase := .top, ctxErr := none } em := by
  have hwaiting := ho.parked hphase
  refine ht.frame rfl rfl ?_ (fun _ h => h) rfl ht.workers ht.results (by simp) (by simp)
  intro id hresting _
  have hne : id ≠ s.run.waitingStep := by
    rintro rfl
    simp [hwaiting, Resting] at hresting
  change Resting (Function.update s.run.state s.run.waitingStep _ id)
  rwa [update_of_ne hne]

end Steps

/-! ## Runs -/

/-- What holds of the scheduler and the record in every state of a run. -/
structure Recorded (wf : WorkflowConfig) (o : Observed) : Prop where
  wf : o.drive.run.wf = wf
  wellFormed : WellFormed o.drive
  ordered : Ordered o.drive
  tracked : Tracked o.drive o.emitted

theorem Recorded.step {e : Engine} (hnames : (stepNames wf).Nodup) {o' : Observed} {ev : Event}
    (ho : Recorded wf o) (hstep : o.step e ev = some o') : Recorded wf o' := by
  obtain ⟨t, ht, rfl⟩ := map_eq_some_iff.mp hstep
  have hnames : (stepNames o.drive.run.wf).Nodup := ho.wf.symm ▸ hnames
  refine ⟨(step_wf ht).trans ho.wf, ho.wellFormed.step ht,
    ho.ordered.step ho.wellFormed (stepNames_order hnames) ht, ?_⟩
  cases step_cases ht with
  | sched now t hsched => exact ho.tracked.scheduled ho.wellFormed ho.ordered hnames hsched
  | worker index act w hw t hworker =>
    exact ho.tracked.worked ho.wellFormed ho.ordered hnames hw hworker
  | cancel | stop =>
    exact ⟨ho.tracked.contrib, ho.tracked.workers, ho.tracked.results, ho.tracked.draining,
      ho.tracked.kept, ho.tracked.parked⟩
  | resolve approve memory hphase =>
    exact ho.tracked.resolved ho.wellFormed ho.ordered hnames hphase approve memory
  | wake hphase => exact ho.tracked.woken ho.ordered hphase

def Observed.start (instID : String) (wf : WorkflowConfig) (cell : SourceItem)
    (seed : List MemoryStep) (event : String → Option String) : Observed where
  drive := { run := initDAG instID wf cell seed event }

theorem recorded_start (instID : String) (wf : WorkflowConfig) (cell : SourceItem)
    (seed : List MemoryStep) (event : String → Option String) :
    Recorded wf (Observed.start instID wf cell seed event) where
  wf := rfl
  wellFormed := (Initial.fresh instID wf cell seed event).started.wellFormed
  ordered := fresh_ordered instID wf cell seed event
  tracked := by
    refine ⟨?_, ?_, ?_, ?_, ?_, ?_⟩ <;> simp [Observed.start, initDAG]

theorem recorded_run (e : Engine) (hnames : (stepNames wf).Nodup) (instID : String)
    (cell : SourceItem) (seed : List MemoryStep) (event : String → Option String) {es : List Event}
    (hrun : Machine.exec (Observed.step e) (Observed.start instID wf cell seed event) es = some o) :
    Recorded wf o :=
  Machine.exec_invariant_of_step (fun _ _ _ ho hstep => ho.step hnames hstep)
    (recorded_start instID wf cell seed event) hrun

/-- Whatever a step has in memory is what it emitted last. -/
theorem Recorded.contribution (ho : Recorded wf o) (hid : id ∈ stepNames wf)
    (hc : o.drive.run.contrib id = some c) : IsLast o.emitted id c.structured := by
  obtain ⟨owner, howns⟩ := owns_of_mem_stepNames hid
  exact (ho.tracked.contrib owner id c (ho.wf.symm ▸ howns) hc).2.2

end Apiary.Workflow
