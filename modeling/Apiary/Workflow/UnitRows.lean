import Apiary.Workflow.Invariants
import Apiary.Workflow.Rows

/-!
# Units, results and their rows

Each agent unit of a worker, and each sub-workflow step, writes one row.  What the
table says about a unit is kept until the result it is part of is taken: a done row
means that the unit has passed, and a unit that passed under a live context has one.
-/

namespace Apiary.Workflow

open Config List Option DriveState Worker Bool

variable {wf : WorkflowConfig} {group child s owner unit : StepConfig} {rows : List StepRun}
  {id output : String} {own res : StepResult} {u : UnitRun} {cell : SourceItem}
  {results : List ChildResult}

/-- The steps whose units have rows of their own. -/
def hasRows (s : StepConfig) : Bool := s.type = .agent || s.type = .workflow || s.type = .parallel

/-! ## Ids -/

/-- The ids under which rows are written do not clash: those of steps, of children of
groups and of foreach items. -/
structure DistinctIDs (wf : WorkflowConfig) : Prop where
  steps : (order wf).Nodup
  children : ((groupChildren wf).map fun pair => pair.1.id).Nodup
  nested : ∀ pair ∈ groupChildren wf, pair.1.id ∉ order wf
  items : ∀ s ∈ wf.steps, s.type = .foreach → ∀ body index, (itemStep s body index).id ∉ order wf ∧
      ∀ pair ∈ groupChildren wf, pair.1.id ≠ (itemStep s body index).id

theorem mem_groupChildren (hgroup : group ∈ wf.steps) (htype : group.type = .parallel)
    (hchild : child ∈ group.subSteps) : (child, group.id) ∈ groupChildren wf := by
  refine mem_flatMap.mpr ⟨group, mem_filter.mpr ⟨hgroup, by simpa using htype⟩, ?_⟩
  exact List.mem_map.mpr ⟨child, hchild, rfl⟩

theorem mem_order (hs : s ∈ wf.steps) : s.id ∈ order wf := List.mem_map.mpr ⟨s, hs, rfl⟩

theorem UnitOf.cases (hunit : UnitOf owner unit) :
    (owner.type = .parallel ∧ unit ∈ owner.subSteps) ∨
      (owner.type = .foreach ∧ ∃ body index, unit = itemStep owner body index) ∨
      (owner.type ≠ .parallel ∧ owner.type ≠ .foreach ∧ unit = owner) := by
  rw [UnitOf] at hunit
  split at hunit
  · exact .inl ⟨‹_›, hunit⟩
  · obtain ⟨body, index, -, heq⟩ := hunit
    exact .inr (.inl ⟨‹_›, body, index, heq⟩)
  · rename_i hparallel hforeach
    exact .inr (.inr ⟨hparallel, hforeach, hunit⟩)

theorem UnitOf.eq_owner (hunit : UnitOf owner unit) (hparallel : owner.type ≠ .parallel)
    (hforeach : owner.type ≠ .foreach) : unit = owner := by
  rcases hunit.cases with ⟨h, -⟩ | ⟨h, -⟩ | ⟨-, -, heq⟩
  · exact absurd h hparallel
  · exact absurd h hforeach
  · exact heq

theorem unitOf_parallel (htype : owner.type = .parallel) :
    UnitOf owner unit ↔ unit ∈ owner.subSteps := by
  rw [UnitOf, htype]

theorem UnitOf.recorded (hunit : UnitOf owner unit) (hhas : hasRows owner = true) :
    (owner.type = .parallel ∧ unit ∈ owner.subSteps) ∨ (owner.type ≠ .parallel ∧ unit = owner) := by
  rcases hunit.cases with hgroup | ⟨hforeach, -⟩ | ⟨hparallel, -, heq⟩
  · exact .inl hgroup
  · simp [hasRows, hforeach] at hhas
  · exact .inr ⟨hparallel, heq⟩

section Distinct

variable {wf : WorkflowConfig} (hids : DistinctIDs wf)

include hids

theorem DistinctIDs.step_eq {s' : StepConfig} (hs : s ∈ wf.steps) (hs' : s' ∈ wf.steps)
    (hid : s.id = s'.id) : s = s' :=
  inj_on_of_nodup_map hids.steps hs hs' hid

theorem DistinctIDs.byID_eq (hs : s ∈ wf.steps) : byID wf s.id = s := byID_of_nodup hids.steps hs

/-- A recorded unit shares its id with no other unit of any step. -/
theorem DistinctIDs.unit_eq {owner' unit' : StepConfig} (howner : owner ∈ wf.steps)
    (hhas : hasRows owner = true) (hunit : UnitOf owner unit) (howner' : owner' ∈ wf.steps)
    (hunit' : UnitOf owner' unit') (hid : unit.id = unit'.id) : owner = owner' ∧ unit = unit' := by
  rcases hunit.recorded hhas with ⟨htype, hchild⟩ | ⟨htype, rfl⟩
  · have hpair := mem_groupChildren howner htype hchild
    rcases hunit'.cases with ⟨htype', hchild'⟩ | ⟨hforeach, body, index, rfl⟩ | ⟨-, -, rfl⟩
    · have hpair' := mem_groupChildren howner' htype' hchild'
      have heq := inj_on_of_nodup_map hids.children hpair hpair' hid
      rw [Prod.mk.injEq] at heq
      exact ⟨hids.step_eq howner howner' heq.2, heq.1⟩
    · exact absurd hid ((hids.items owner' howner' hforeach body index).2 _ hpair)
    · exact absurd (hid ▸ mem_order howner') (hids.nested _ hpair)
  · rcases hunit'.cases with ⟨htype', hchild'⟩ | ⟨hforeach, body, index, rfl⟩ | ⟨-, -, rfl⟩
    · exact absurd (hid ▸ mem_order howner) (hids.nested _ (mem_groupChildren howner' htype' hchild'))
    · exact absurd (hid ▸ mem_order howner) (hids.items owner' howner' hforeach body index).1
    · have heq := hids.step_eq howner howner' hid
      exact ⟨heq, heq⟩

theorem DistinctIDs.restorableChild (hgroup : group ∈ wf.steps) (htype : group.type = .parallel)
    (hchild : child ∈ group.subSteps) : restorableChild wf group.id child.id := by
  have hpair := mem_groupChildren hgroup htype hchild
  refine ⟨?_, ?_, ?_⟩
  · cases hfind : findStep child.id wf.steps with
    | none => rfl
    | some =>
      obtain ⟨hs, hid⟩ := findStep_eq_some hfind
      exact absurd (hid ▸ mem_order hs) (hids.nested _ hpair)
  · intro hnone
    exact findStep_eq_none hnone child (List.mem_map.mpr ⟨_, hpair, rfl⟩) rfl
  · rw [parentOfChild, map_eq_some_iff]
    cases hfind : (groupChildren wf).reverse.find? fun pair => pair.1.id = child.id with
    | none =>
      have hnone := find?_eq_none.mp hfind _ (mem_reverse.mpr hpair)
      simp at hnone
    | some pair =>
      have hmem := mem_reverse.mp (mem_of_find?_eq_some hfind)
      have hid : pair.1.id = child.id := by simpa using find?_some hfind
      have heq := inj_on_of_nodup_map hids.children hmem hpair hid
      exact ⟨pair, rfl, by rw [heq]⟩

omit hids in
theorem subSteps_nodup (hchildren : ((groupChildren wf).map fun pair => pair.1.id).Nodup)
    (hgroup : group ∈ wf.steps) (htype : group.type = .parallel) :
    (group.subSteps.map StepConfig.id).Nodup := by
  rw [groupChildren, map_flatMap, nodup_flatMap] at hchildren
  have hown := hchildren.1 group (mem_filter.mpr ⟨hgroup, by simpa using htype⟩)
  rwa [List.map_map] at hown

theorem DistinctIDs.restorable (hs : s ∈ wf.steps) (htype : s.type ≠ .split) :
    restorable wf s.id = true := by
  rw [Workflow.restorable, findStep_of_nodup hids.steps hs]
  simpa using htype

end Distinct

theorem hasRows_unitOf (hhas : hasRows owner = true) (htype : owner.type ≠ .parallel) :
    UnitOf owner owner ∧ owner.type ≠ .split := by
  cases hkind : owner.type <;> simp_all [hasRows, UnitOf]

def UnitRun.hasPassed (u : UnitRun) : Bool :=
  match u.phase with
  | .finished res => res.success
  | _ => false

/-- The children that joined are agent steps. -/
def joinsAgents (wr : WorkerResult) : Bool :=
  wr.step.subSteps.all fun child =>
    child.type = .agent || wr.parallelContribs.all fun c => c.stepID ≠ child.id

/-! ## Units and their rows -/

section Finish

variable {s : DriveState} {w : Worker} {u : UnitRun} {n : ℕ} {res : StepResult}

theorem markStepRunFailed_write {nextRow : ℕ} {key : Option ℕ}
    (hof : ∀ m, key = some m → RowsOf rows m id) :
    RowsWrite id nextRow rows (markStepRunFailed rows key output) := by
  cases key with
  | none => exact RowsWrite.refl id nextRow rows
  | some m => exact RowsWrite.update (hof m rfl) (fun _ => rfl) fun _ => rfl

/-- Marking the row of a step failed leaves no done row of it, if that was the only
one. -/
theorem not_mem_doneIDs_mark
    (honly : ∀ row ∈ rows, row.state = .done → row.stepID = id → row.id = n) :
    id ∉ doneIDs (markStepRunFailed rows (some n) output) := by
  rw [mem_doneIDs]
  rintro ⟨row, hrow, hdone, hid⟩
  obtain ⟨old, hold, rfl⟩ := List.mem_map.mp hrow
  by_cases hn : old.id = n
  · rw [if_pos hn] at hdone
    cases hdone
  · rw [if_neg hn] at hdone hid
    exact hn (honly old hold hdone hid)

theorem markStepRunFailed_finishRow :
    markStepRunFailed (updateRow n (finishRow own) rows) (some n) output =
      updateRow n (fun row => { finishRow own row with state := .failed, output := output }) rows := by
  rw [markStepRunFailed, updateRow, updateRow, updateRow, List.map_map]
  apply map_congr_left
  intro row _
  by_cases hn : row.id = n <;> simp [hn, finishRow]

theorem unitResult_stepRunID (w : Worker) (u : UnitRun) (n : ℕ) (res : StepResult) :
    (w.unitResult u n res).stepRunID =
      if w.writesRow u && u.step.type ≠ .workflow then some n else none := by
  rw [unitResult]
  by_cases hwrites : w.writesRow u = true
  · by_cases htype : u.step.type = .workflow <;> simp [hwrites, htype]
  · simp [hwrites]

theorem unitResult_pending (hwrites : w.writesRow u = true) :
    (w.unitResult u n res).pending = false := by
  rw [unitResult, if_pos hwrites]

theorem writesRow_group (hgroup : w.isGroup = true) (hwrites : w.writesRow u = true) :
    u.step.type = .agent := by
  simp only [isGroup, writesRow, or_eq_true, and_eq_true,
    decide_eq_true_eq] at hgroup hwrites
  rcases hwrites with hagent | ⟨-, hworkflow⟩
  · exact hagent
  · simp [hworkflow] at hgroup

/-- Ending the unit `u` leaves the table as it is or updates the row under its key `n`. -/
inductive Finishes (s : DriveState) (w : Worker) (u : UnitRun) (n : ℕ) (final : StepResult) :
    List StepRun → Prop
  | untouched (hskip : s.ctxErr = none → w.writesRow u = true → final.success = false) :
      Finishes s w u n final s.rows
  | updated (f : StepRun → StepRun) (hstep : ∀ row, (f row).stepID = row.stepID)
      (hkey : ∀ row, (f row).id = row.id)
      (hstate : ∀ row, (f row).state = .done ↔ final.success = true) :
      Finishes s w u n final (updateRow n f s.rows)

section Ends

variable {final : StepResult} (hends : Finishes s w u n final rows)

include hends

theorem Finishes.write (hof : RowsOf s.rows n u.step.id) :
    RowsWrite u.step.id s.nextRow s.rows rows := by
  cases hends with
  | untouched => exact RowsWrite.refl _ _ _
  | updated f hstep hkey => exact RowsWrite.update hof hstep hkey

theorem Finishes.keys : rows.map StepRun.id = s.rows.map StepRun.id := by
  cases hends with
  | untouched => rfl
  | updated f _ hkey => exact updateRow_keys hkey

theorem Finishes.done (hnone : u.step.id ∉ doneIDs s.rows) : ∀ row ∈ rows, row.state = .done →
    row.stepID = u.step.id → row.id = n ∧ final.success = true := by
  intro row hrow hdone hid
  have hfresh : row ∉ s.rows := fun hold => hnone (mem_doneIDs.mpr ⟨row, hold, hdone, hid⟩)
  cases hends with
  | untouched => exact absurd hrow hfresh
  | updated f _ hkey hstate =>
    refine ⟨mem_updateRow_new hrow hfresh hkey, ?_⟩
    obtain ⟨old, hold, rfl⟩ := List.mem_map.mp hrow
    split at hdone
    · exact (hstate old).mp hdone
    · rw [if_neg ‹_›] at hfresh
      exact absurd hold hfresh

theorem Finishes.recorded (hof : RowsOf s.rows n u.step.id) (hsuccess : final.success = true)
    (hctx : s.ctxErr = none) (hwrites : w.writesRow u = true) (hrow : ∃ row ∈ s.rows, row.id = n) :
    u.step.id ∈ doneIDs rows := by
  cases hends with
  | untouched hskip => simp [hskip hctx hwrites] at hsuccess
  | updated f hstep _ hstate =>
    obtain ⟨row, hmem, hn⟩ := hrow
    refine mem_doneIDs.mpr ⟨f row, List.mem_map.mpr ⟨row, hmem, if_pos hn⟩, ?_, ?_⟩
    · exact (hstate row).mpr hsuccess
    · exact (hstep row).trans (hof row hmem hn)

end Ends

/-- The result under which a unit ends: units of a group are checked for missing
output. -/
def Worker.finalResult (w : Worker) (u : UnitRun) (n : ℕ) (res : StepResult) : StepResult :=
  if w.isGroup then (applyMissingOutput u.step (w.unitResult u n res)).1
  else w.unitResult u n res

theorem finishUnit_phase (s : DriveState) (w : Worker) (u : UnitRun) (n : ℕ) (res : StepResult) :
    (s.finishUnit w u n res).2 = .finished (w.finalResult u n res) := by
  rw [finishUnit, finalResult]
  dsimp only
  split <;> rfl

theorem finishRow_done (row : StepRun) : (finishRow own row).state = .done ↔ own.success = true := by
  cases hsuccess : own.success <;> simp [finishRow, hsuccess]

theorem finishUnit_group (hgroup : w.isGroup = true) :
    Finishes s w u n (applyMissingOutput u.step (w.unitResult u n res)).1
      (s.finishUnit w u n res).1.rows := by
  obtain ⟨-, hid, hsuccess⟩ := applyMissingOutput_frame u.step (w.unitResult u n res)
  have hkey := unitResult_stepRunID w u n res
  rw [finishUnit]
  dsimp only
  rw [if_pos hgroup]
  dsimp only
  rw [hid, hkey]
  by_cases hwrites : w.writesRow u = true
  · have hagent := writesRow_group hgroup hwrites
    cases hctx : s.ctxErr with
    | some =>
      simp only [hwrites, hagent, isNone_some, reduceCtorEq, decide_false, Bool.or_self,
        Bool.and_false, Bool.false_eq_true, if_false]
      exact .untouched fun hnone => by cases hctx.symm.trans hnone
    | none =>
      simp only [hwrites, hagent, isNone_none, Bool.true_or, Bool.and_true, if_true,
        ne_eq, reduceCtorEq, not_false_eq_true, decide_true]
      cases hrejected : (applyMissingOutput u.step (w.unitResult u n res)).2 with
      | true =>
        rw [if_pos rfl, markStepRunFailed_finishRow]
        exact .updated _ (fun _ => rfl) (fun _ => rfl) (by simp [hsuccess, hrejected])
      | false =>
        rw [hrejected, Bool.not_false, Bool.and_true] at hsuccess
        exact .updated _ (fun _ => rfl) (fun _ => rfl) fun row => hsuccess ▸ finishRow_done row
  · have hno : w.writesRow u = false := by simpa using hwrites
    simp only [hno, Bool.false_and, Bool.false_eq_true, if_false, markStepRunFailed, ite_self]
    exact .untouched fun _ h => absurd h hwrites

theorem finishUnit_finishes (s : DriveState) (w : Worker) (u : UnitRun) (n : ℕ) (res : StepResult) :
    Finishes s w u n (w.finalResult u n res) (s.finishUnit w u n res).1.rows := by
  rw [finalResult]
  split_ifs with hgroup
  · exact finishUnit_group hgroup
  · rw [finishUnit]
    dsimp only
    rw [if_neg hgroup]
    dsimp only
    split_ifs with hpersists
    · exact .updated _ (fun _ => rfl) (fun _ => rfl) finishRow_done
    · apply Finishes.untouched
      intro hctx hwrites
      simp [hctx, hwrites] at hpersists

theorem finalResult_pending (hwrites : w.writesRow u = true) :
    (w.finalResult u n res).pending = false := by
  have hown : (w.unitResult u n res).pending = false := unitResult_pending hwrites
  rw [finalResult]
  split
  · exact (applyMissingOutput_frame u.step _).1.trans hown
  · exact hown

end Finish

/-- The only done row of the step `id` is under the key `n`, and all rows under `n` are
its own. -/
structure OwnRow (rows : List StepRun) (nextRow : ℕ) (id : String) (n : ℕ) : Prop where
  key : n < nextRow
  belong : RowsOf rows n id
  only : ∀ row ∈ rows, row.state = .done → row.stepID = id → row.id = n

/-- What the table says about a unit of the worker `w`. -/
structure UnitOk (rows : List StepRun) (nextRow : ℕ) (ctxErr : Option String) (w : Worker)
    (u : UnitRun) : Prop where
  passed : hasRows w.step = true → u.step.id ∈ doneIDs rows → u.hasPassed = true
  recorded : hasRows w.step = true → u.hasPassed = true → ctxErr = none → w.writesRow u = true →
    u.step.id ∈ doneIDs rows
  running : ∀ n, u.phase = .running n → n < nextRow ∧ RowsOf rows n u.step.id ∧
    (ctxErr = none → w.writesRow u = true → ∃ row ∈ rows, row.id = n)
  settled : ∀ res, u.phase = .finished res → w.writesRow u = true → res.pending = false
  keyed : ∀ res, u.phase = .finished res → w.step.type = .agent →
    ∃ n, res.stepRunID = some n ∧ OwnRow rows nextRow u.step.id n
  keyless : ∀ res, u.phase = .finished res → w.step.type ≠ .agent → w.isGroup = false →
    res.stepRunID = none

structure WorkerOk (rows : List StepRun) (nextRow : ℕ) (ctxErr : Option String) (w : Worker) :
    Prop where
  units : ∀ u ∈ w.units, UnitOk rows nextRow ctxErr w u
  group : w.step.type = .parallel → w.units.map UnitRun.step = w.step.subSteps
  single : w.step.type ≠ .parallel → w.step.type ≠ .foreach → ∃ u, w.units = [u]

section Units

variable {rows rows' : List StepRun} {nextRow nextRow' : ℕ} {ctxErr : Option String}
  {w : Worker} {u : UnitRun} {id : String}

/-- A write to the rows of another step leaves what the table says about a unit. -/
theorem UnitOk.frame (hok : UnitOk rows nextRow ctxErr w u)
    (hwrite : RowsWrite id nextRow rows rows') (hnext : nextRow ≤ nextRow')
    (hne : hasRows w.step = true → u.step.id ≠ id) : UnitOk rows' nextRow' ctxErr w u where
  passed hhas hdone := hok.passed hhas ((hwrite.mem_doneIDs (hne hhas)).mp hdone)
  recorded hhas hpassed hnone hwrites :=
    (hwrite.mem_doneIDs (hne hhas)).mpr (hok.recorded hhas hpassed hnone hwrites)
  running n hrunning := by
    obtain ⟨hn, hof, hrow⟩ := hok.running n hrunning
    refine ⟨by omega, hwrite.belong n _ hn hof, ?_⟩
    intro hnone hwrites
    obtain ⟨row, hmem, hkey⟩ := hrow hnone hwrites
    obtain ⟨row', hmem', hkey'⟩ := hwrite.keys row hmem
    exact ⟨row', hmem', hkey'.trans hkey⟩
  settled := hok.settled
  keyed res hfinished hagent := by
    obtain ⟨n, hkey, hn, hof, honly⟩ := hok.keyed res hfinished hagent
    have hid : u.step.id ≠ id := hne (by simp [hasRows, hagent])
    refine ⟨n, hkey, by omega, hwrite.belong n _ hn hof, ?_⟩
    intro row hrow hdone hrowID
    exact honly row ((hwrite.done row (hrowID ▸ hid) hdone).mp hrow) hdone hrowID
  keyless := hok.keyless

theorem UnitOk.canceled (hok : UnitOk rows nextRow ctxErr w u) (err : String) :
    UnitOk rows nextRow (some err) w u where
  passed := hok.passed
  recorded _ _ hnone := nomatch hnone
  running n hrunning := by
    obtain ⟨hn, hof, -⟩ := hok.running n hrunning
    exact ⟨hn, hof, fun hnone => (nomatch hnone)⟩
  settled := hok.settled
  keyed := hok.keyed
  keyless := hok.keyless

theorem WorkerOk.frame (hok : WorkerOk rows nextRow ctxErr w)
    (hwrite : RowsWrite id nextRow rows rows') (hnext : nextRow ≤ nextRow')
    (hne : hasRows w.step = true → ∀ u ∈ w.units, u.step.id ≠ id) :
    WorkerOk rows' nextRow' ctxErr w where
  units u hu := (hok.units u hu).frame hwrite hnext fun hhas => hne hhas u hu
  group := hok.group
  single := hok.single

theorem WorkerOk.canceled (hok : WorkerOk rows nextRow ctxErr w) (err : String) :
    WorkerOk rows nextRow (some err) w :=
  ⟨fun u hu => (hok.units u hu).canceled err, hok.group, hok.single⟩

theorem UnitOk.not_done (hok : UnitOk rows nextRow ctxErr w u) (hhas : hasRows w.step = true)
    (hnot : u.hasPassed = false) : u.step.id ∉ doneIDs rows := by
  intro hdone
  rw [hok.passed hhas hdone] at hnot
  cases hnot

theorem hasPassed_eq_true : u.hasPassed = true ↔ ∃ res, u.phase = .finished res ∧ res.success = true := by
  rw [UnitRun.hasPassed]
  cases u.phase <;> simp

theorem UnitOk.waiting (hnot : hasRows w.step = true → u.step.id ∉ doneIDs rows)
    (hphase : u.phase = .idle ∨ u.phase = .spawned) : UnitOk rows nextRow ctxErr w u := by
  rcases hphase with h | h <;>
    exact ⟨fun hhas hdone => absurd hdone (hnot hhas), by simp [UnitRun.hasPassed, h], by simp [h],
      by simp [h], by simp [h], by simp [h]⟩

end Units

section UnitSteps

variable {s : DriveState} {w : Worker} {u : UnitRun} {n : ℕ} {res : StepResult}

/-- What a step of a unit does to the table. -/
structure TableStep (id : String) (s t : DriveState) : Prop where
  write : RowsWrite id s.nextRow s.rows t.rows
  next : s.nextRow ≤ t.nextRow
  ctxErr : t.ctxErr = s.ctxErr
  fresh : (∀ row ∈ s.rows, row.id < s.nextRow) → ∀ row ∈ t.rows, row.id < t.nextRow

theorem startUnit_table (s : DriveState) (w : Worker) (u : UnitRun) :
    TableStep u.step.id s (s.startUnit w u).1 := by
  rw [startUnit]
  split
  · exact ⟨RowsWrite.refl _ _ _, le_rfl, rfl, id⟩
  · dsimp only
    split
    · refine ⟨RowsWrite.insert rfl rfl, Nat.le_succ _, rfl, fun hfresh => ?_⟩
      exact Table.forall_insert (fun row hold => Nat.lt_succ_of_lt (hfresh row hold))
        (Nat.lt_succ_self _)
    · exact ⟨RowsWrite.refl _ _ _, Nat.le_succ _, rfl,
        fun hfresh row hrow => Nat.lt_succ_of_lt (hfresh row hrow)⟩

theorem fresh_of_keys {rows' : List StepRun} {nextRow : ℕ}
    (hkeys : rows'.map StepRun.id = rows.map StepRun.id)
    (hfresh : ∀ row ∈ rows, row.id < nextRow) : ∀ row ∈ rows', row.id < nextRow := by
  rw [← forall_mem_map (f := StepRun.id) (P := (· < nextRow))] at hfresh ⊢
  rwa [hkeys]

theorem finishUnit_table (hof : RowsOf s.rows n u.step.id) :
    TableStep u.step.id s (s.finishUnit w u n res).1 := by
  have hends := finishUnit_finishes s w u n res
  obtain ⟨rows, heq⟩ := finishUnit_eq s w u n res
  rw [heq] at hends ⊢
  exact ⟨hends.write hof, le_rfl, rfl, fresh_of_keys hends.keys⟩

theorem UnitOk.started (hfresh : ∀ row ∈ s.rows, row.id < s.nextRow)
    (hnot : hasRows w.step = true → u.step.id ∉ doneIDs s.rows) :
    UnitOk (s.startUnit w u).1.rows (s.startUnit w u).1.nextRow (s.startUnit w u).1.ctxErr w
      { u with phase := (s.startUnit w u).2 } := by
  have habsent : RowsOf s.rows s.nextRow u.step.id := by
    intro row hrow hkey
    have hlt := hfresh row hrow
    omega
  rw [startUnit]
  split
  · rename_i hunsupported
    have hparallel : w.step.type = .parallel := by
      simp only [unsupported, and_eq_true, decide_eq_true_eq] at hunsupported
      exact hunsupported.1.1
    refine ⟨fun hhas hdone => absurd hdone (hnot hhas), ?_, by simp, ?_, ?_, ?_⟩
    · simp [UnitRun.hasPassed]
    · intro res hres _
      cases hres
      rfl
    · intro _ _ hagent
      simp [hparallel] at hagent
    · intro _ _ _ hgroup
      simp [isGroup, hparallel] at hgroup
  · dsimp only
    refine ⟨?_, by simp [UnitRun.hasPassed], ?_, by simp, by simp, by simp⟩
    · intro hhas hdone
      split at hdone
      · rw [doneIDs_append_running _ rfl] at hdone
        exact absurd hdone (hnot hhas)
      · exact absurd hdone (hnot hhas)
    · intro n hn
      rw [UnitPhase.running.injEq] at hn
      subst hn
      refine ⟨Nat.lt_succ_self _, ?_, ?_⟩
      · split
        · exact Table.forall_insert habsent fun _ => rfl
        · exact habsent
      · intro hnone hwrites
        have hinserts : (w.writesRow u && s.ctxErr.isNone) = true := by
          have hwrites : w.writesRow u = true := hwrites
          simp [hwrites, hnone]
        rw [if_pos hinserts]
        exact ⟨_, mem_append_right _ (mem_singleton_self _), rfl⟩

theorem UnitOk.ended (hok : UnitOk s.rows s.nextRow s.ctxErr w u) (hphase : u.phase = .running n)
    (hunit : UnitOf w.step u.step) :
    UnitOk (s.finishUnit w u n res).1.rows (s.finishUnit w u n res).1.nextRow
      (s.finishUnit w u n res).1.ctxErr w { u with phase := (s.finishUnit w u n res).2 } := by
  obtain ⟨hn, hof, hrow⟩ := hok.running n hphase
  have hends := finishUnit_finishes s w u n res
  have hnot : hasRows w.step = true → u.step.id ∉ doneIDs s.rows :=
    fun hhas => hok.not_done hhas (by simp [UnitRun.hasPassed, hphase])
  have hkey : w.isGroup = false → (w.finalResult u n res).stepRunID =
      if w.step.type = .agent then some n else none := by
    intro hgroup
    rw [finalResult, if_neg (by simp [hgroup]), unitResult_stepRunID]
    simp only [isGroup, or_eq_false_iff, decide_eq_false_iff_not] at hgroup
    rw [writesRow, hunit.eq_owner hgroup.1 hgroup.2]
    by_cases hagent : w.step.type = .agent <;> simp [hagent]
  obtain ⟨rows, heq⟩ := finishUnit_eq s w u n res
  rw [finishUnit_phase]
  rw [heq] at hends ⊢
  refine ⟨?_, ?_, by simp, ?_, ?_, ?_⟩
  · intro hhas hdone
    obtain ⟨row, hrow, hdone, hid⟩ := mem_doneIDs.mp hdone
    exact (hends.done (hnot hhas) row hrow hdone hid).2
  · exact fun hhas hpassed hnone hwrites =>
      hends.recorded hof hpassed hnone hwrites (hrow hnone hwrites)
  · intro final hfinal hwrites
    rw [UnitPhase.finished.injEq] at hfinal
    rw [← hfinal]
    exact finalResult_pending hwrites
  · intro final hfinal hagent
    cases hfinal
    have hhas : hasRows w.step = true := by simp [hasRows, hagent]
    refine ⟨n, ?_, hn, (hends.write hof).belong n _ hn hof, fun row hrow hdone hid =>
      (hends.done (hnot hhas) row hrow hdone hid).1⟩
    rw [hkey (by simp [isGroup, hagent]), if_pos hagent]
  · intro final hfinal hagent hgroup
    cases hfinal
    rw [hkey hgroup, if_neg hagent]

end UnitSteps

/-! ## Results and their rows -/

/-- Where a result in the channel comes from. -/
inductive ResultOk (e : Engine) (wf : WorkflowConfig) (rows : List StepRun) (nextRow : ℕ)
    (ctxErr : Option String) (wr : WorkerResult) : Prop where
  | errored (hfailed : wr.res.success = false) (hpending : wr.res.pending = false)
      (hkeyless : wr.res.stepRunID = none)
      (hclean : hasRows wr.step = true → wr.step.type ≠ .parallel → wr.step.id ∉ doneIDs rows)
  | asked (htype : wr.step.type = .approval) (hkeyless : wr.res.stepRunID = none)
  | worked (w : Worker) (cell : SourceItem) (hof : w.Of wf) (hok : WorkerOk rows nextRow ctxErr w)
      (hdeliver : w.mayDeliver = true) (heq : wr = w.result e cell)

section Results

variable {e : Engine} {wf : WorkflowConfig} {rows rows' : List StepRun} {nextRow nextRow' : ℕ}
  {ctxErr : Option String} {w : Worker} {wr : WorkerResult} {id : String}

theorem ResultOk.frame (hok : ResultOk e wf rows nextRow ctxErr wr)
    (hwrite : RowsWrite id nextRow rows rows') (hnext : nextRow ≤ nextRow')
    (hne : hasRows wr.step = true → ∀ unit, UnitOf wr.step unit → unit.id ≠ id) :
    ResultOk e wf rows' nextRow' ctxErr wr := by
  cases hok with
  | errored hfailed hpending hkeyless hclean =>
    refine .errored hfailed hpending hkeyless ?_
    intro hhas htype hdone
    have hself := hne hhas wr.step (hasRows_unitOf hhas htype).1
    exact hclean hhas htype ((hwrite.mem_doneIDs hself).mp hdone)
  | asked htype hkeyless => exact .asked htype hkeyless
  | worked w cell hof hok hdeliver heq =>
    refine .worked w cell hof (hok.frame hwrite hnext ?_) hdeliver heq
    intro hhas u hu
    have hstep : wr.step = w.step := by rw [heq, result_step]
    rw [hstep] at hne
    exact hne hhas u.step (hof.units u hu)

theorem ResultOk.canceled (hok : ResultOk e wf rows nextRow ctxErr wr) (err : String) :
    ResultOk e wf rows nextRow (some err) wr := by
  cases hok with
  | errored hfailed hpending hkeyless hclean => exact .errored hfailed hpending hkeyless hclean
  | asked htype hkeyless => exact .asked htype hkeyless
  | worked w cell hof hok hdeliver heq => exact .worked w cell hof (hok.canceled err) hdeliver heq

/-- A worker that reports has no unit left to run. -/
theorem mayDeliver_finished (hdeliver : w.mayDeliver = true) (hu : u ∈ w.units)
    (hidle : u.phase ≠ .idle) : ∃ res, u.phase = .finished res := by
  simp only [mayDeliver, and_eq_true, List.all_eq_true] at hdeliver
  have hactive := hdeliver.1 u hu
  cases hphase : u.phase with
  | idle => exact absurd hphase hidle
  | spawned | running => simp [UnitRun.isActive, hphase] at hactive
  | finished res => exact ⟨res, rfl⟩

/-- The only unit of a worker that reports has ended. -/
theorem mayDeliver_single (hunits : w.units = [u]) (hdeliver : w.mayDeliver = true) :
    ∃ res, u.phase = .finished res := by
  refine mayDeliver_finished hdeliver (by simp [hunits]) ?_
  intro hidle
  simp [mayDeliver, hunits, UnitRun.isIdle, UnitRun.hasFailed, UnitRun.isActive, hidle]
    at hdeliver

theorem result_single (hparallel : w.step.type ≠ .parallel) (hforeach : w.step.type ≠ .foreach)
    (hunits : w.units = [u]) (hphase : u.phase = .finished res) (cell : SourceItem) :
    w.result e cell = { step := w.step, res := res } := by
  rw [result]
  split
  · exact absurd ‹_› hparallel
  · exact absurd ‹_› hforeach
  · simp [hunits, UnitRun.result?, hphase]

/-- What the table says about the result of an agent or sub-workflow step. -/
structure SingleOk (rows : List StepRun) (nextRow : ℕ) (ctxErr : Option String)
    (wr : WorkerResult) : Prop where
  recorded : wr.res.success = true → ctxErr = none → wr.step.id ∈ doneIDs rows
  keyed : wr.step.type = .agent → wr.res.success = true →
    ∃ n, wr.res.stepRunID = some n ∧ OwnRow rows nextRow wr.step.id n

theorem ResultOk.single (hok : ResultOk e wf rows nextRow ctxErr wr) (hhas : hasRows wr.step = true)
    (htype : wr.step.type ≠ .parallel) : SingleOk rows nextRow ctxErr wr := by
  cases hok with
  | errored hfailed hpending hkeyless hclean =>
    constructor <;> simp [hfailed]
  | asked happroval => simp [hasRows, happroval] at hhas
  | worked w cell hof hok hdeliver heq =>
    rw [heq, result_step] at hhas htype
    have hforeach : w.step.type ≠ .foreach := fun h => by simp [hasRows, h] at hhas
    obtain ⟨u, hunits⟩ := hok.single htype hforeach
    obtain ⟨res, hphase⟩ := mayDeliver_single hunits hdeliver
    have hmem : u ∈ w.units := by simp [hunits]
    have hunit := hok.units u hmem
    have hstep := (hof.units u hmem).eq_owner htype hforeach
    have hpassed : u.hasPassed = res.success := by simp [UnitRun.hasPassed, hphase]
    have hwrites : w.writesRow u = true := by
      rw [writesRow, hstep]
      simp only [hasRows, or_eq_true, decide_eq_true_eq] at hhas ⊢
      grind
    rw [heq, result_single htype hforeach hunits hphase]
    constructor
    · intro hsuccess hnone
      have hrow := hunit.recorded hhas (hpassed.trans hsuccess) hnone hwrites
      rwa [hstep] at hrow
    · intro hagent _
      have hkeyed := hunit.keyed res hphase hagent
      rwa [hstep] at hkeyed

/-- Only the result of an agent step carries the key of a row. -/
theorem ResultOk.keyless (hok : ResultOk e wf rows nextRow ctxErr wr) (hagent : wr.step.type ≠ .agent) :
    wr.res.stepRunID = none := by
  cases hok with
  | errored hfailed hpending hkeyless | asked happroval hkeyless => exact hkeyless
  | worked w cell hof hok hdeliver heq =>
    rw [heq, result_step] at hagent
    rw [heq, result]
    split
    · generalize hwr : joinParallel e cell w _ = wr
      cases hwr ▸ joinParallel_joined e cell w _ <;> rfl
    · split <;> rfl
    · rename_i hparallel hforeach
      obtain ⟨u, hunits⟩ := hok.single hparallel hforeach
      obtain ⟨res, hphase⟩ := mayDeliver_single hunits hdeliver
      have hgroup : w.isGroup = false := by
        simpa [isGroup] using And.intro hparallel hforeach
      have hkeyless := (hok.units u (by simp [hunits])).keyless res hphase hagent hgroup
      simpa [hunits, UnitRun.result?, hphase] using hkeyless

/-! ## Joins -/

/-- The results of the children that a group joins. -/
def Worker.childResults (w : Worker) : List ChildResult :=
  w.units.filterMap fun u => u.result?.map fun res => (u.step, res)

theorem result?_eq_some : u.result? = some res ↔ u.phase = .finished res := by
  rw [UnitRun.result?]
  split <;> simp_all

theorem mem_childResults :
    (child, res) ∈ w.childResults ↔ ∃ u ∈ w.units, u.step = child ∧ u.phase = .finished res := by
  simp only [childResults, mem_filterMap, map_eq_some_iff, Prod.mk.injEq]
  constructor
  · rintro ⟨u, hu, r, hr, rfl, rfl⟩
    exact ⟨u, hu, rfl, result?_eq_some.mp hr⟩
  · rintro ⟨u, hu, rfl, hphase⟩
    exact ⟨u, hu, res, result?_eq_some.mpr hphase, rfl, rfl⟩

section Group

variable (hids : DistinctIDs wf) (hof : w.Of wf) (hok : WorkerOk rows nextRow ctxErr w)
  (hparallel : w.step.type = .parallel)

include hids hof hok hparallel

theorem WorkerOk.units_nodup : (w.units.map fun u => u.step.id).Nodup := by
  have hsub := subSteps_nodup hids.children hof.declared hparallel
  rwa [← hok.group hparallel, List.map_map] at hsub

/-- A group runs one unit for each of its children. -/
theorem WorkerOk.unit_eq {u' : UnitRun} (hu : u ∈ w.units) (hu' : u' ∈ w.units)
    (hid : u.step.id = u'.step.id) : u = u' := by
  exact inj_on_of_nodup_map (hok.units_nodup hids hof hparallel) hu hu' hid

theorem WorkerOk.child_eq (hu : u ∈ w.units) (hchild : child ∈ w.step.subSteps)
    (hid : u.step.id = child.id) : u.step = child := by
  have hsub : u.step ∈ w.step.subSteps := hok.group hparallel ▸ List.mem_map.mpr ⟨u, hu, rfl⟩
  exact inj_on_of_nodup_map (subSteps_nodup hids.children hof.declared hparallel) hsub hchild hid

omit hids hof in
theorem WorkerOk.child_passed (hchild : child ∈ w.step.subSteps) (hdone : child.id ∈ doneIDs rows) :
    ∃ u ∈ w.units, u.step = child ∧ ∃ res, u.phase = .finished res ∧ res.success = true := by
  rw [← hok.group hparallel, List.mem_map] at hchild
  obtain ⟨u, hu, rfl⟩ := hchild
  have hhas : hasRows w.step = true := by simp [hasRows, hparallel]
  exact ⟨u, hu, rfl, hasPassed_eq_true.mp ((hok.units u hu).passed hhas hdone)⟩

omit hids hof in
theorem WorkerOk.child_recorded (hu : u ∈ w.units) (hphase : u.phase = .finished res)
    (hsuccess : res.success = true) (hnone : ctxErr = none) (hagent : u.step.type = .agent) :
    u.step.id ∈ doneIDs rows := by
  have hhas : hasRows w.step = true := by simp [hasRows, hparallel]
  have hwrites : w.writesRow u = true := by simp [writesRow, hagent]
  exact (hok.units u hu).recorded hhas (hasPassed_eq_true.mpr ⟨res, hphase, hsuccess⟩) hnone hwrites

end Group

theorem result_parallel (hparallel : w.step.type = .parallel) (cell : SourceItem) :
    w.result e cell = joinParallel e cell w w.childResults := by
  rw [result]
  simp only [hparallel]
  rfl

/-- A group that succeeds contributes each child that passed. -/
theorem joinParallel_success (hsuccess : (joinParallel e cell w results).res.success = true) :
    (joinParallel e cell w results).parallelContribs = childContribs results := by
  have hjoined := joinParallel_joined e cell w results
  generalize joinParallel e cell w results = wr at hjoined hsuccess ⊢
  cases hjoined with
  | empty hnil => simp [hnil, childContribs]
  | passed => rfl
  | waiting | failed => cases hsuccess

/-- A group that goes on waiting keeps the children that have ended. -/
theorem joinParallel_pending (hpending : (joinParallel e cell w results).res.pending = true) :
    (joinParallel e cell w results).parallel = parallelState results := by
  have hjoined := joinParallel_joined e cell w results
  generalize joinParallel e cell w results = wr at hjoined hpending ⊢
  cases hjoined with
  | waiting => rfl
  | empty | passed | failed => cases hpending

theorem mem_childContribs : (∃ c ∈ childContribs results, c.stepID = id) ↔
      ∃ child res, (child, res) ∈ results ∧ res.success = true ∧ child.id = id := by
  simp only [childContribs, List.mem_map, mem_filter]
  constructor
  · rintro ⟨_, ⟨cr, ⟨hcr, hsuccess⟩, rfl⟩, rfl⟩
    exact ⟨cr.1, cr.2, hcr, hsuccess, rfl⟩
  · rintro ⟨child, res, hcr, hsuccess, rfl⟩
    exact ⟨_, ⟨(child, res), ⟨hcr, hsuccess⟩, rfl⟩, rfl⟩

theorem parallelState_done (hdone : (parallelState results).done id = some res) :
    ∃ child, (child, res) ∈ results ∧ child.id = id ∧ res.pending = false := by
  obtain ⟨cr, hfind, rfl⟩ := map_eq_some_iff.mp hdone
  have hcr := find?_some hfind
  simp only [and_eq_true, not_eq_true', decide_eq_true_eq] at hcr
  exact ⟨cr.1, mem_reverse.mp (mem_of_find?_eq_some hfind), hcr.2, hcr.1⟩

variable (hresult : ResultOk e wf rows nextRow ctxErr wr) (hparallel : wr.step.type = .parallel)

include hresult hparallel

theorem ResultOk.of_group (hlive : wr.res.success = true ∨ wr.res.pending = true) :
    ∃ w cell, w.Of wf ∧ WorkerOk rows nextRow ctxErr w ∧ w.step.type = .parallel ∧
      wr = joinParallel e cell w w.childResults := by
  cases hresult with
  | errored hfailed hpending => simp [hfailed, hpending] at hlive
  | asked happroval => simp [hparallel] at happroval
  | worked w cell hof hok hdeliver heq =>
    subst heq
    rw [result_step] at hparallel
    exact ⟨w, cell, hof, hok, hparallel, result_parallel hparallel cell⟩

/-- A group contributes its own children only. -/
theorem ResultOk.contribs_of (hsuccess : wr.res.success = true) {c : MemoryStep}
    (hc : c ∈ wr.parallelContribs) : ∃ child ∈ wr.step.subSteps, child.id = c.stepID := by
  obtain ⟨w, cell, hof, hok, hgroup, rfl⟩ := hresult.of_group hparallel (.inl hsuccess)
  rw [joinParallel_success hsuccess] at hc
  obtain ⟨child, res, hmem, -, hid⟩ := mem_childContribs.mp ⟨c, hc, rfl⟩
  obtain ⟨u, hu, rfl, -⟩ := mem_childResults.mp hmem
  rw [joinParallel_step]
  exact ⟨u.step, hok.group hgroup ▸ List.mem_map.mpr ⟨u, hu, rfl⟩, hid⟩

/-- When a group passes, the children with a done row are those it contributes. -/
theorem ResultOk.joined (hids : DistinctIDs wf) (hsuccess : wr.res.success = true)
    (hnone : ctxErr = none) (hagents : joinsAgents wr = true) (hchild : child ∈ wr.step.subSteps) :
    child.id ∈ doneIDs rows ↔ ∃ c ∈ wr.parallelContribs, c.stepID = child.id := by
  obtain ⟨w, cell, hof, hok, hgroup, rfl⟩ := hresult.of_group hparallel (.inl hsuccess)
  have hcontribs := joinParallel_success hsuccess
  rw [joinParallel_step] at hchild
  rw [joinsAgents, joinParallel_step, hcontribs] at hagents
  rw [hcontribs, mem_childContribs]
  constructor
  · intro hdone
    obtain ⟨u, hu, rfl, res, hphase, hpassed⟩ := hok.child_passed hgroup hchild hdone
    exact ⟨u.step, res, mem_childResults.mpr ⟨u, hu, rfl, hphase⟩, hpassed, rfl⟩
  · rintro ⟨other, res, hmem, hpassed, hid⟩
    obtain ⟨u, hu, rfl, hphase⟩ := mem_childResults.mp hmem
    have hagent : child.type = .agent := by
      have hcase := List.all_eq_true.mp hagents child hchild
      simp only [or_eq_true, decide_eq_true_eq, List.all_eq_true] at hcase
      refine hcase.resolve_right fun hall => ?_
      obtain ⟨c, hc, hcid⟩ := mem_childContribs.mpr ⟨u.step, res, hmem, hpassed, hid⟩
      exact hall c hc hcid
    have hsame := hok.child_eq hids hof hgroup hu hchild hid
    rw [← hid]
    exact hok.child_recorded hgroup hu hphase hpassed hnone (hsame ▸ hagent)

/-- When a group parks, the children with a done row are those it keeps as passed. -/
theorem ResultOk.kept (hids : DistinctIDs wf) (hpending : wr.res.pending = true)
    (hchild : child ∈ wr.step.subSteps)
    (hkeeps : (child.type = .agent ∧ ctxErr = none) ∨
      (child.id ∉ doneIDs rows ∧ (wr.parallel.done child.id).any StepResult.success = false)) :
    child.id ∈ doneIDs rows ↔ ∃ res, wr.parallel.done child.id = some res ∧ res.success = true := by
  rcases hkeeps with ⟨hagent, hnone⟩ | ⟨hrow, hdone⟩
  · obtain ⟨w, cell, hof, hok, hgroup, rfl⟩ := hresult.of_group hparallel (.inr hpending)
    rw [joinParallel_step] at hchild
    rw [joinParallel_pending hpending]
    constructor
    · intro hdone
      obtain ⟨u, hu, rfl, res, hphase, hpassed⟩ := hok.child_passed hgroup hchild hdone
      have hwrites : w.writesRow u = true := by simp [writesRow, hagent]
      have hsettled := (hok.units u hu).settled res hphase hwrites
      have hmem := mem_childResults.mpr ⟨u, hu, rfl, hphase⟩
      cases hkept : (parallelState w.childResults).done u.step.id with
      | none =>
        have hno := find?_eq_none.mp (map_eq_none_iff.mp hkept) _
          (mem_reverse.mpr hmem)
        simp [hsettled] at hno
      | some res' =>
        obtain ⟨other, hcr, hid, -⟩ := parallelState_done hkept
        obtain ⟨u', hu', rfl, hphase'⟩ := mem_childResults.mp hcr
        have hsame := hok.unit_eq hids hof hgroup hu' hu hid
        rw [hsame, hphase, UnitPhase.finished.injEq] at hphase'
        exact ⟨res', rfl, hphase' ▸ hpassed⟩
    · rintro ⟨res, hdone, hpassed⟩
      obtain ⟨other, hcr, hid, -⟩ := parallelState_done hdone
      obtain ⟨u, hu, rfl, hphase⟩ := mem_childResults.mp hcr
      have hsame := hok.child_eq hids hof hgroup hu hchild hid
      rw [← hsame]
      exact hok.child_recorded hgroup hu hphase hpassed hnone (hsame ▸ hagent)
  · simp only [hrow, false_iff]
    rintro ⟨res, hres, hpassed⟩
    simp [hres, hpassed] at hdone

/-- What a group keeps while it parks are results, not waits. -/
theorem ResultOk.kept_pending (hpending : wr.res.pending = true) {child : String}
    (hdone : wr.parallel.done child = some res) : res.pending = false := by
  obtain ⟨w, cell, -, -, -, rfl⟩ := hresult.of_group hparallel (.inr hpending)
  rw [joinParallel_pending hpending] at hdone
  obtain ⟨_, -, -, hsettled⟩ := parallelState_done hdone
  exact hsettled

end Results

end Apiary.Workflow
