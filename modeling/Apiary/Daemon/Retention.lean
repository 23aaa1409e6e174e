import Apiary.Daemon.Rounds

/-!
# Retention of task notes

The sweep deletes the notes of tasks that ended before the retention window, unless a task
spawned below them still needs them.  Tasks below are looked for down to a fixed depth, and a
task that cannot be read counts as one that is not there.
-/

namespace Apiary.Daemon

open List

structure SpawnedTask where
  id : ℕ
  parent : Option ℕ
  state : TaskState
  updatedAt : ℕ := 0

structure TaskNotes where
  taskID : ℕ
  modTime : ℕ

/-- What a sweep reads, with the tasks for which a call fails. -/
structure NoteSweep where
  tasks : List SpawnedTask
  cutoff : ℕ
  unread : List ℕ := []
  unlisted : List ℕ := []

def SpawnedTask.settled (task : SpawnedTask) : Bool := task.state = .done || task.state = .failed

namespace NoteSweep

variable (s : NoteSweep)

def find (id : ℕ) : Option SpawnedTask := s.tasks.find? fun task => task.id = id

def getTask (id : ℕ) : Option SpawnedTask := if id ∈ s.unread then none else s.find id

def children (id : ℕ) : List SpawnedTask := s.tasks.filter fun task => task.parent = some id

def listChildTasks (id : ℕ) : Option (List SpawnedTask) :=
  if id ∈ s.unlisted then none else some (s.children id)

/-- The recursion of `hasLiveDescendant` with so many levels left. -/
def liveWithin : ℕ → ℕ → Bool
  | 0, _ => false
  | levels + 1, id =>
    match s.listChildTasks id with
    | none => true
    | some children => children.any fun c => !c.settled || liveWithin levels c.id

def hasLiveDescendant (id depth : ℕ) : Bool := s.liveWithin (33 - depth) id

def prunes (tn : TaskNotes) : Bool :=
  match s.getTask tn.taskID with
  | none => tn.modTime < s.cutoff
  | some task => task.settled && task.updatedAt ≤ s.cutoff && !s.hasLiveDescendant tn.taskID 0

/-- The notes that are deleted. -/
def pruneTaskMemoryOnce (notes : List TaskNotes) : List TaskNotes := notes.filter s.prunes

/-- The tasks so many levels below a task. -/
def reached : ℕ → ℕ → List ℕ
  | 0, id => [id]
  | level + 1, id => (s.children id).flatMap fun c => reached level c.id

/-- The task ended before the window, and every task spawned below it is over. -/
def Settled (id : ℕ) (task : SpawnedTask) : Prop :=
  task.state.isTerminal = true ∧ task.updatedAt ≤ s.cutoff ∧
    ∀ level, ∀ x ∈ s.reached level id, ∀ c ∈ s.children x, c.state.isTerminal = true

def PrunesSettled (notes : List TaskNotes) : Prop :=
  ∀ tn ∈ s.pruneTaskMemoryOnce notes, ∀ task, s.find tn.taskID = some task →
    s.Settled tn.taskID task

/-- What the sweep does not look at is over as well: tasks that it fails to read, and those
more than 33 levels below one that has only settled tasks down to there. -/
structure Sighted (notes : List TaskNotes) : Prop where
  reads : ∀ tn ∈ notes, tn.taskID ∈ s.unread → tn.modTime < s.cutoff →
    ∀ task, s.find tn.taskID = some task → s.Settled tn.taskID task
  depth : ∀ tn ∈ notes, tn.taskID ∉ s.unread →
    ∀ task, s.find tn.taskID = some task → task.settled = true → task.updatedAt ≤ s.cutoff →
    (∀ level < 33, ∀ x ∈ s.reached level tn.taskID, x ∉ s.unlisted ∧
      ∀ c ∈ s.children x, c.settled = true) →
    ∀ level ≥ 33, ∀ x ∈ s.reached level tn.taskID, ∀ c ∈ s.children x, c.state.isTerminal = true

variable {s}

theorem isTerminal_of_settled {task : SpawnedTask} (hsettled : task.settled = true) :
    task.state.isTerminal = true := by
  rw [SpawnedTask.settled, Bool.or_eq_true, decide_eq_true_eq, decide_eq_true_eq] at hsettled
  rcases hsettled with hstate | hstate <;> rw [hstate] <;> rfl

theorem liveWithin_eq_false {levels id : ℕ} : s.liveWithin levels id = false ↔
    ∀ level < levels, ∀ x ∈ s.reached level id, x ∉ s.unlisted ∧
      ∀ c ∈ s.children x, c.settled = true := by
  induction levels generalizing id with
  | zero => simp [liveWithin]
  | succ levels ih =>
    have hone : s.liveWithin (levels + 1) id = false ↔ id ∉ s.unlisted ∧
        ∀ c ∈ s.children id, c.settled = true ∧ s.liveWithin levels c.id = false := by
      rw [liveWithin, listChildTasks]
      by_cases hlisted : id ∈ s.unlisted <;> simp [hlisted]
    rw [hone]
    constructor
    · rintro ⟨hlisted, hchildren⟩ (_ | level) hlevel x hx
      · rw [mem_singleton.mp hx]
        exact ⟨hlisted, fun c hc => (hchildren c hc).1⟩
      · obtain ⟨c, hc, hx⟩ := mem_flatMap.mp hx
        exact ih.mp (hchildren c hc).2 level (Nat.lt_of_succ_lt_succ hlevel) x hx
    · intro hall
      obtain ⟨hlisted, hchildren⟩ := hall 0 (Nat.succ_pos levels) id mem_cons_self
      refine ⟨hlisted, fun c hc => ⟨hchildren c hc, ih.mpr fun level hlevel x hx => ?_⟩⟩
      exact hall (level + 1) (Nat.succ_lt_succ hlevel) x (mem_flatMap.mpr ⟨c, hc, hx⟩)

/-- A sweep deletes the notes of a task that it knows only if the task and all that was spawned
below it are over, exactly when this holds of what it does not look at. -/
theorem prunesSettled_iff (s : NoteSweep) (notes : List TaskNotes) :
    s.PrunesSettled notes ↔ s.Sighted notes := by
  constructor
  · refine fun hall => ⟨fun tn htn hunread hold task htask => ?_,
      fun tn htn hread task htask hsettled hold hnear level _ => ?_⟩
    · refine hall tn (mem_filter.mpr ⟨htn, ?_⟩) task htask
      simp [prunes, getTask, hunread, hold]
    · have hlive := liveWithin_eq_false.mpr hnear
      refine (hall tn (mem_filter.mpr ⟨htn, ?_⟩) task htask).2.2 level
      simp [prunes, getTask, hread, htask, hsettled, hold, hasLiveDescendant, hlive]
  · intro hsighted tn htn task htask
    obtain ⟨htn, hprunes⟩ := mem_filter.mp htn
    by_cases hread : tn.taskID ∈ s.unread
    · simp only [prunes, getTask, hread, if_true, decide_eq_true_eq] at hprunes
      exact hsighted.reads tn htn hread hprunes task htask
    · simp only [prunes, getTask, hread, if_false, htask, Bool.and_eq_true, decide_eq_true_eq,
        Bool.not_eq_true', hasLiveDescendant] at hprunes
      obtain ⟨⟨hsettled, hold⟩, hlive⟩ := hprunes
      have hnear := liveWithin_eq_false.mp hlive
      refine ⟨isTerminal_of_settled hsettled, hold, fun level x hx c hc => ?_⟩
      rcases Nat.lt_or_ge level 33 with hlevel | hlevel
      · exact isTerminal_of_settled ((hnear level hlevel x hx).2 c hc)
      · exact hsighted.depth tn htn hread task htask hsettled hold hnear level hlevel x hx c hc

end NoteSweep

/-- Each task has spawned the next, and only the last one still runs. -/
def spawnChain : NoteSweep where
  tasks := (range 35).map fun i =>
    { id := i, parent := if i = 0 then none else some (i - 1),
      state := if i = 34 then .running else .done }
  cutoff := 100

/-- The notes of the first one are deleted. -/
theorem spawnChain_pruned :
    spawnChain.prunes ⟨0, 0⟩ = true ∧ ¬ spawnChain.PrunesSettled [⟨0, 0⟩] := by
  have hpruned : spawnChain.prunes ⟨0, 0⟩ = true := by decide +kernel
  refine ⟨hpruned, fun hall => ?_⟩
  have hsettled := hall ⟨0, 0⟩ (mem_filter.mpr ⟨mem_cons_self, hpruned⟩) _ rfl
  have hlast : ((spawnChain.reached 33 0).all fun x =>
      (spawnChain.children x).all fun c => c.state.isTerminal) = false := by decide +kernel
  rw [all_eq_true.mpr fun x hx => all_eq_true.mpr (hsettled.2.2 33 x hx)] at hlast
  cases hlast

end Apiary.Daemon
