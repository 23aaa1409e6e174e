import Apiary.Workflow.DriveSteps

/-!
# What a restored run takes from its rows

Only the ids with a done row matter for which steps a restored run counts as
passed, which children it keeps for their groups, and which steps it activates.
-/

namespace Apiary.Workflow

open Config Function List

variable {id : String} {row : StepRun}

/-- The ids of the rows that ended done. -/
def doneIDs (rows : List StepRun) : List String :=
  (rows.filter fun row => row.state = .done).map StepRun.stepID

theorem mem_doneIDs {rows : List StepRun} :
    id ∈ doneIDs rows ↔ ∃ row ∈ rows, row.state = .done ∧ row.stepID = id := by
  simp [doneIDs, and_assoc]

theorem doneIDs_cons (row : StepRun) (rows : List StepRun) : doneIDs (row :: rows) =
      if row.state = .done then row.stepID :: doneIDs rows else doneIDs rows := by
  rw [doneIDs, filter_cons]
  by_cases hdone : row.state = .done <;> simp [hdone, doneIDs]

/-- A row that has just been inserted is running. -/
theorem doneIDs_append_running (rows : List StepRun) (hrow : row.state = .running) :
    doneIDs (rows ++ [row]) = doneIDs rows := by
  simp [doneIDs, filter_append, hrow]

/-- The rows under the key `n` belong to the step `id`. -/
def RowsOf (rows : List StepRun) (n : ℕ) (id : String) : Prop :=
  ∀ row ∈ rows, row.id = n → row.stepID = id

/-- A write to the table that touches only rows of the step `id`, or adds one under the
key `nextRow`. -/
structure RowsWrite (id : String) (nextRow : ℕ) (rows rows' : List StepRun) : Prop where
  done : ∀ row, row.stepID ≠ id → row.state = .done → (row ∈ rows' ↔ row ∈ rows)
  belong : ∀ n other, n < nextRow → RowsOf rows n other → RowsOf rows' n other
  keys : ∀ row ∈ rows, ∃ row' ∈ rows', row'.id = row.id

section Write

variable {id : String} {nextRow n : ℕ} {rows rows' : List StepRun} {f : StepRun → StepRun}

theorem RowsWrite.refl (id : String) (nextRow : ℕ) (rows : List StepRun) :
    RowsWrite id nextRow rows rows :=
  ⟨fun _ _ _ => Iff.rfl, fun _ _ _ h => h, fun row hrow => ⟨row, hrow, rfl⟩⟩

/-- Writing the rows of one step leaves the other steps as done as they were. -/
theorem RowsWrite.mem_doneIDs (hwrite : RowsWrite id nextRow rows rows') {other : String}
    (hne : other ≠ id) : other ∈ doneIDs rows' ↔ other ∈ doneIDs rows := by
  simp only [Workflow.mem_doneIDs]
  constructor
  · rintro ⟨row, hrow, hdone, rfl⟩
    exact ⟨row, (hwrite.done row hne hdone).mp hrow, hdone, rfl⟩
  · rintro ⟨row, hrow, hdone, rfl⟩
    exact ⟨row, (hwrite.done row hne hdone).mpr hrow, hdone, rfl⟩

theorem RowsWrite.insert (hid : row.id = nextRow) (hrunning : row.state = .running) :
    RowsWrite id nextRow rows (rows ++ [row]) where
  done other _ hdone := by
    have hne : other ≠ row := fun heq => by simp [heq, hrunning] at hdone
    simp [hne]
  belong n other hn hof := by
    intro row' hrow' hn'
    rcases mem_append.mp hrow' with hold | hnew
    · exact hof row' hold hn'
    · rw [mem_singleton] at hnew
      subst hnew
      omega
  keys old hold := ⟨old, mem_append_left _ hold, rfl⟩

theorem RowsWrite.update (hof : RowsOf rows n id) (hstep : ∀ row, (f row).stepID = row.stepID)
    (hkey : ∀ row, (f row).id = row.id) : RowsWrite id nextRow rows (updateRow n f rows) where
  done row hne hdone := by
    rw [updateRow, mem_map]
    constructor
    · rintro ⟨old, hold, rfl⟩
      by_cases hn : old.id = n
      · rw [if_pos hn, hstep] at hne
        exact absurd (hof old hold hn) hne
      · rwa [if_neg hn]
    · intro hrow
      exact ⟨row, hrow, if_neg fun hn => hne (hof row hrow hn)⟩
  belong m other _ hof' := by
    intro row hrow hm
    obtain ⟨old, hold, rfl⟩ := mem_map.mp hrow
    by_cases hn : old.id = n
    · rw [if_pos hn] at hm ⊢
      rw [hkey] at hm
      rw [hstep]
      exact hof' old hold hm
    · rw [if_neg hn] at hm ⊢
      exact hof' old hold hm
  keys row hrow := by
    refine ⟨_, mem_map.mpr ⟨row, hrow, rfl⟩, ?_⟩
    split
    · exact hkey row
    · rfl

theorem updateRow_keys (hkey : ∀ row, (f row).id = row.id) :
    (updateRow n f rows).map StepRun.id = rows.map StepRun.id := by
  rw [updateRow, map_map]
  apply map_congr_left
  intro row _
  change (if row.id = n then f row else row).id = row.id
  split
  · exact hkey row
  · rfl

theorem markStepRunFailed_keys (rows : List StepRun) (key : Option ℕ) (output : String) :
    (markStepRunFailed rows key output).map StepRun.id = rows.map StepRun.id := by
  cases key with
  | none => rfl
  | some => exact updateRow_keys fun _ => rfl

/-- After a write under the key `n`, a row that was not there before is under `n`. -/
theorem mem_updateRow_new (hrow : row ∈ updateRow n f rows) (hold : row ∉ rows)
    (hkey : ∀ row, (f row).id = row.id) : row.id = n := by
  obtain ⟨old, hmem, rfl⟩ := mem_map.mp hrow
  by_cases hn : old.id = n
  · rw [if_pos hn, hkey, hn]
  · rw [if_neg hn] at hold
    exact absurd hmem hold

end Write

/-! ## Restoring -/

/-- What a parallel group keeps of a child. -/
def DagRun.memo (r : DagRun) (parent child : String) : Option StepResult :=
  (r.parallelDone parent).bind fun done => done child

/-- A group keeps the child as passed. -/
def DagRun.Keeps (r : DagRun) (parent child : String) : Prop :=
  ∃ res, r.memo parent child = some res ∧ res.success = true

section Restore

variable (wf : WorkflowConfig)

/-- The rows under this id restore a step of the graph. -/
def restorable (id : String) : Bool := (findStep id wf.steps).any fun step => step.type ≠ .split

/-- The rows under this id restore a child of the group `parent`. -/
def restorableChild (parent id : String) : Prop :=
  findStep id wf.steps = none ∧ childByID wf id ≠ none ∧ parentOfChild wf id = some parent

/-- Restoring the step `id` activates `next`. -/
def activates (next id : String) : Bool :=
  restorable wf id && (byID wf id).onPass.any fun n => n.next ≠ "" && n.next = next

variable {wf}

theorem childByID_id {child : StepConfig} (hchild : childByID wf id = some child) :
    child.id = id := (findStep_eq_some hchild).2

variable (r : DagRun) (rows : List StepRun)

theorem restoreRow_state (sr : StepRun) (id : String) :
    (restoreRow r sr).state id = some .passed ↔
      r.state id = some .passed ∨ (sr.state = .done ∧ sr.stepID = id ∧ restorable r.wf id) := by
  rw [restoreRow]
  split_ifs with hdone
  · simp [hdone]
  · split
    · rename_i step hfind
      obtain ⟨-, hid⟩ := findStep_eq_some hfind
      split_ifs with htype
      · constructor
        · exact .inl
        · rintro (hpassed | ⟨-, rfl, hrest⟩)
          · exact hpassed
          · simp [restorable, hfind, htype] at hrest
      · by_cases heq : sr.stepID = id
        · subst heq
          simp_all [restorePassed, DagRun.setState, restorable]
        · have hne : id ≠ step.id := by
            rw [hid]
            exact fun h => heq h.symm
          simp [restorePassed, DagRun.setState, update_of_ne hne, heq]
    · rename_i hfind
      have hno : ¬ (sr.state = .done ∧ sr.stepID = id ∧ restorable r.wf id) := by
        rintro ⟨-, rfl, hrest⟩
        simp [restorable, hfind] at hrest
      split
      · rw [restoreParallelChild]
        split <;> simp only [hno, or_false]
      · simp only [hno, or_false]

theorem restoreRow_keeps (sr : StepRun) (parent child : String) :
    (restoreRow r sr).Keeps parent child ↔ r.Keeps parent child ∨
        (sr.state = .done ∧ sr.stepID = child ∧ restorableChild r.wf parent child) := by
  rw [restoreRow]
  split_ifs with hdone
  · simp [hdone]
  · rw [Decidable.not_not] at hdone
    split
    · rename_i hfind
      have hno : ¬ (sr.state = .done ∧ sr.stepID = child ∧ restorableChild r.wf parent child) := by
        rintro ⟨-, rfl, hrest⟩
        simp [restorableChild, hfind] at hrest
      split
      · simp only [hno, or_false]
      · simp only [hno, or_false]
        rfl
    · rename_i hfind
      split
      · rename_i hchild
        have hid := childByID_id hchild
        rw [restoreParallelChild, hid]
        split
        · rename_i hparent
          simp only [restorableChild, iff_self_or]
          rintro ⟨-, rfl, -, -, hsome⟩
          simp [hparent] at hsome
        · rename_i owner hparent
          simp only [DagRun.Keeps, DagRun.memo]
          by_cases hown : parent = owner
          · subst hown
            rw [update_self, Option.bind_some]
            by_cases hsame : child = sr.stepID
            · subst hsame
              simp [hdone, restorableChild, hfind, hchild, hparent]
            · rw [update_of_ne hsame]
              have hne : ¬ sr.stepID = child := fun h => hsame h.symm
              simp only [hne, false_and, and_false, or_false]
              cases r.parallelDone parent <;> simp
          · rw [update_of_ne hown]
            simp only [restorableChild, iff_self_or]
            rintro ⟨-, rfl, -, -, hsome⟩
            rw [hparent, Option.some.injEq] at hsome
            exact absurd hsome.symm hown
      · rename_i hchild
        simp only [restorableChild, iff_self_or]
        rintro ⟨-, rfl, -, hsome, -⟩
        exact absurd hchild hsome

theorem restoreRow_activated (sr : StepRun) (next : String) :
    (restoreRow r sr).activated next = true ↔
      r.activated next = true ∨ (sr.state = .done ∧ activates r.wf next sr.stepID) := by
  rw [restoreRow]
  split_ifs with hdone
  · simp [hdone]
  · rw [Decidable.not_not] at hdone
    split
    · rename_i hfind
      split_ifs with htype
      · simp [activates, restorable, hfind, htype]
      · simp [activates, restorable, hfind, htype, hdone, restorePassed, byID]
    · rename_i hfind
      have hno : activates r.wf next sr.stepID = false := by
        simp [activates, restorable, hfind]
      split
      · rw [restoreParallelChild]
        split <;> simp [hno]
      · simp [hno]

/-- A fact about restored runs that each done row can add holds iff it held before or
some done row adds it. -/
theorem restoreCachedSteps_iff (has : DagRun → Prop) (adds : WorkflowConfig → String → Prop)
    (hrow : ∀ r sr, has (restoreRow r sr) ↔ has r ∨ (sr.state = .done ∧ adds r.wf sr.stepID)) :
    has (restoreCachedSteps r rows) ↔ has r ∨ ∃ id ∈ doneIDs rows, adds r.wf id := by
  induction rows generalizing r with
  | nil => simp [restoreCachedSteps, doneIDs]
  | cons sr rows ih =>
    have hrest := ih (restoreRow r sr)
    rw [(restoreRow_restores r sr).wf, hrow] at hrest
    change has (restoreCachedSteps (restoreRow r sr) rows) ↔ _
    rw [hrest, or_assoc, doneIDs_cons]
    apply or_congr_right
    by_cases hdone : sr.state = .done <;> simp [hdone]

/-- A restored run has passed what it had passed and the restorable steps that are done. -/
theorem restored_state (id : String) :
    (restoreCachedSteps r rows).state id = some .passed ↔
      r.state id = some .passed ∨ (id ∈ doneIDs rows ∧ restorable r.wf id) := by
  rw [restoreCachedSteps_iff r rows (fun r => r.state id = some .passed)
    (fun wf rowID => rowID = id ∧ restorable wf id) fun r sr => restoreRow_state r sr id]
  simp

/-- The children kept are those kept before and the restorable ones that are done. -/
theorem restored_keeps (parent child : String) :
    (restoreCachedSteps r rows).Keeps parent child ↔
      r.Keeps parent child ∨ (child ∈ doneIDs rows ∧ restorableChild r.wf parent child) := by
  rw [restoreCachedSteps_iff r rows (fun r => r.Keeps parent child)
    (fun wf rowID => rowID = child ∧ restorableChild wf parent child)
    fun r sr => restoreRow_keeps r sr parent child]
  simp

/-- A step is activated again by any step that is done and routes to it. -/
theorem restored_activated (next : String) :
    (restoreCachedSteps r rows).activated next = true ↔
      r.activated next = true ∨ ∃ id ∈ doneIDs rows, activates r.wf next id :=
  restoreCachedSteps_iff r rows (fun r => r.activated next = true)
    (fun wf id => activates wf next id) fun r sr => restoreRow_activated r sr next

/-- Only steps of the definition get a contribution back. -/
theorem restored_contrib (hid : id ∉ order r.wf) :
    (restoreCachedSteps r rows).contrib id = r.contrib id := by
  refine (foldlRecOn rows restoreRow
    (motive := fun t => t.wf = r.wf ∧ t.contrib id = r.contrib id) ⟨rfl, rfl⟩ ?_).2
  intro t ht sr _
  refine ⟨(restoreRow_restores t sr).wf.trans ht.1, ?_⟩
  rw [restoreRow]
  split
  · exact ht.2
  · split
    · rename_i step hfind
      split
      · exact ht.2
      · obtain ⟨hmem, hstep⟩ := findStep_eq_some hfind
        have hne : id ≠ step.id := by
          intro heq
          rw [ht.1] at hmem
          exact hid (heq ▸ mem_map.mpr ⟨step, hmem, rfl⟩)
        exact (update_of_ne hne _ _).trans ht.2
    · split
      · rw [restoreParallelChild]
        split <;> exact ht.2
      · exact ht.2

theorem restored_memo
    (hmemo : ∀ group child res, r.memo group child = some res → res.pending = false)
    (group child : String) (res : StepResult)
    (hres : (restoreCachedSteps r rows).memo group child = some res) : res.pending = false := by
  revert group child res
  refine foldlRecOn rows restoreRow
    (motive := fun t => ∀ group child res, t.memo group child = some res → res.pending = false)
    hmemo ?_
  intro t ht sr _ group child res hres
  rw [restoreRow] at hres
  split at hres
  · exact ht group child res hres
  · split at hres
    · split at hres <;> exact ht group child res hres
    · split at hres
      · rename_i found _
        rw [restoreParallelChild] at hres
        split at hres
        · exact ht group child res hres
        · rename_i parent _
          by_cases hgroup : group = parent
          · subst hgroup
            simp only [DagRun.memo, update_self, Option.bind_some] at hres
            by_cases hchild : child = found.id
            · subst hchild
              rw [update_self, Option.some.injEq] at hres
              rw [← hres]
            · rw [update_of_ne hchild] at hres
              refine ht group child res ?_
              cases hold : t.parallelDone group with
              | none => simp [hold] at hres
              | some => simpa [DagRun.memo, hold] using hres
          · simp only [DagRun.memo, update_of_ne hgroup] at hres
            exact ht group child res hres
      · exact ht group child res hres

end Restore

end Apiary.Workflow
