import Mathlib.Data.List.Sort
import Apiary.Config.Step
import Apiary.Core.Latest
import Apiary.Daemon.Rounds

/-!
# Resumes of persisted instances

The checks of a resume request, and the pass of a starting daemon that continues the
interrupted instances of the workflows with `resume: auto`.  The pass reads the
interrupted rows only.  It therefore picks the newest of these, which need not be the
newest instance of its task and workflow, and it does not ask whether the row belongs to
a sub-workflow.
-/

namespace Apiary.Daemon

open Config (ResumePolicy)
open List Bool

variable {inst : WorkflowInstance} {resumed : List WorkflowInstance}

/-! ## The instance table -/

/-- A row of `workflow_instances`. -/
structure WorkflowInstance where
  id : ℕ
  task : String
  workflow : String
  state : InstanceState
  parent : Option ℕ := none
  resumedFrom : Option ℕ := none
  createdAt : ℕ
  deriving DecidableEq

abbrev RouteKey := String × String

/-- `autoResumeKey`. -/
def WorkflowInstance.key (inst : WorkflowInstance) : RouteKey := (inst.task, inst.workflow)

/-- `ListWorkflowInstancesBlockedBy`, oldest first. -/
def listBlockedBy (reason : BlockedReason) (rows : List WorkflowInstance) : List WorkflowInstance :=
  (rows.filter fun inst => inst.state = .blocked reason).insertionSort
    fun a b => a.createdAt ≤ b.createdAt

def hasResumeDescendant (rows : List WorkflowInstance) (id : ℕ) : Bool :=
  rows.any fun inst => inst.resumedFrom = some id

/-- `resumableState`. -/
def InstanceState.resumable (s : InstanceState) : Bool := s = .failed || s = .blocked .interrupted

/-- Whether `startResume` accepts the instance, under the policy of the definition it
would run. -/
def startResume (policy : Option ResumePolicy) (inst : WorkflowInstance) : Bool :=
  inst.state.resumable && policy.any fun p => p ≠ .forbidden

/-! ## The startup pass -/

/-- What the pass reads: the policies of the configured workflows, the tasks and the
instances. -/
structure Startup where
  policy : String → Option ResumePolicy
  tasks : String → Option TaskState
  rows : List WorkflowInstance

namespace Startup

open List

variable (d : Startup)

def taskSettled (task : String) : Bool :=
  task ≠ "" && (d.tasks task).any fun st => st = .done || st = .failed

def orphans : List WorkflowInstance := listBlockedBy .interrupted d.rows

def isAuto (inst : WorkflowInstance) : Bool := d.policy inst.workflow = some .auto

def candidates : Latest RouteKey WorkflowInstance :=
  Latest.ofList WorkflowInstance.key (d.orphans.filter d.isAuto)

/-- The pass at one key.  The claim on the key is kept for the instances resumed so far;
the descendants these get name other instances. -/
def resumeKey (resumed : List WorkflowInstance) (key : RouteKey) : List WorkflowInstance :=
  match d.candidates.value key with
  | none => resumed
  | some inst =>
    if hasResumeDescendant d.rows inst.id then resumed
    else if d.taskSettled inst.task then resumed
    else if key ∈ resumed.map WorkflowInstance.key then resumed
    else if startResume (d.policy inst.workflow) inst then resumed ++ [inst]
    else resumed

/-- The instances that the pass continues. -/
def resumeAutoInterrupted : List WorkflowInstance := d.candidates.order.foldl d.resumeKey []

/-! ## What the pass picks -/

/-- The orphan the pass looks at for a task and workflow. -/
def lastOrphan (inst : WorkflowInstance) : Bool :=
  d.isAuto inst && (d.orphans.filter fun other => other.key = inst.key).getLast? = some inst

/-- The orphans that are continued: the last ones of their task and workflow, without a
descendant, on a task that has not settled. -/
def picks (inst : WorkflowInstance) : Bool :=
  d.lastOrphan inst && !hasResumeDescendant d.rows inst.id && !d.taskSettled inst.task

variable {d}

theorem candidates_value {key : RouteKey} :
    d.candidates.value key = some inst ↔ inst.key = key ∧ d.lastOrphan inst = true := by
  rw [candidates, Latest.value_ofList, filter_filter]
  -- whether a row is kept depends on its workflow, which is part of the key
  have hfilter : ∀ (auto : Bool), (∀ other, WorkflowInstance.key other = key → d.isAuto other = auto) →
      (d.orphans.filter fun other => decide (other.key = key) && d.isAuto other) =
        if auto then d.orphans.filter fun other => other.key = key else [] := by
    intro auto hauto
    cases auto with
    | true =>
      rw [if_pos rfl]
      apply filter_congr
      intro other _
      by_cases hkey : other.key = key
      · simp [hkey, hauto other hkey]
      · simp [hkey]
    | false =>
      rw [if_neg Bool.false_ne_true]
      apply filter_eq_nil_iff.mpr
      intro other _
      by_cases hkey : other.key = key
      · simp [hauto other hkey]
      · simp [hkey]
  have hauto : ∀ other, WorkflowInstance.key other = key →
      d.isAuto other = decide (d.policy key.2 = some .auto) := by
    rintro other rfl
    rfl
  rw [hfilter _ hauto]
  constructor
  · intro hlast
    split at hlast
    · rename_i hpolicy
      have hmem := mem_of_getLast? hlast
      have hkey : inst.key = key := by simpa using (mem_filter.mp hmem).2
      subst hkey
      refine ⟨rfl, ?_⟩
      simp only [lastOrphan, and_eq_true, decide_eq_true_eq]
      exact ⟨(hauto inst rfl).trans hpolicy, hlast⟩
    · cases hlast
  · rintro ⟨rfl, hlast⟩
    simp only [lastOrphan, and_eq_true, decide_eq_true_eq] at hlast
    rw [if_pos ((hauto inst rfl).symm.trans hlast.1)]
    exact hlast.2

theorem mem_orphans : inst ∈ d.orphans ↔ inst ∈ d.rows ∧ inst.state = .blocked .interrupted := by
  rw [orphans, listBlockedBy, mem_insertionSort, mem_filter, decide_eq_true_eq]

theorem lastOrphan_mem (hlast : d.lastOrphan inst = true) : inst ∈ d.orphans := by
  simp only [lastOrphan, and_eq_true, decide_eq_true_eq] at hlast
  exact (mem_filter.mp (mem_of_getLast? hlast.2)).1

/-- The rows are listed oldest first, so the last orphan is the newest. -/
theorem lastOrphan_newest {other : WorkflowInstance} (hlast : d.lastOrphan inst = true)
    (hother : other ∈ d.orphans) (hkey : other.key = inst.key) :
    other.createdAt ≤ inst.createdAt := by
  simp only [lastOrphan, and_eq_true, decide_eq_true_eq] at hlast
  have hsorted : d.orphans.Pairwise fun a b => a.createdAt ≤ b.createdAt := by
    have : Std.Total fun a b : WorkflowInstance => a.createdAt ≤ b.createdAt :=
      ⟨fun a b => Nat.le_total a.createdAt b.createdAt⟩
    have : IsTrans WorkflowInstance fun a b => a.createdAt ≤ b.createdAt :=
      ⟨fun _ _ _ => Nat.le_trans⟩
    exact pairwise_insertionSort _ _
  have hmem : other ∈ d.orphans.filter fun other => other.key = inst.key :=
    mem_filter.mpr ⟨hother, by simpa using hkey⟩
  obtain ⟨before, hsplit⟩ := getLast?_eq_some_iff.mp hlast.2
  have hpair := hsorted.filter fun other => decide (other.key = inst.key)
  rw [hsplit, pairwise_append] at hpair
  rw [hsplit, mem_append, mem_singleton] at hmem
  rcases hmem with hbefore | rfl
  · exact hpair.2.2 other hbefore inst mem_cons_self
  · exact Nat.le_refl _

theorem picks_lastOrphan (hpicks : d.picks inst = true) : d.lastOrphan inst = true := by
  simp only [picks, and_eq_true] at hpicks
  exact hpicks.1.1

/-- What the pass continues at one key. -/
def picked (d : Startup) (key : RouteKey) : Option WorkflowInstance :=
  (d.candidates.value key).filter d.picks

theorem picked_eq_some {key : RouteKey} :
    d.picked key = some inst ↔ inst.key = key ∧ d.picks inst = true := by
  rw [picked, Option.filter_eq_some_iff, candidates_value]
  exact ⟨fun h => ⟨h.1.1, h.2⟩, fun h => ⟨⟨h.1, picks_lastOrphan h.2⟩, h.2⟩⟩

theorem resumeKey_eq {key : RouteKey} (hfresh : key ∉ resumed.map WorkflowInstance.key) :
    d.resumeKey resumed key = resumed ++ (d.picked key).toList := by
  rw [resumeKey, picked]
  cases hvalue : d.candidates.value key with
  | none => simp
  | some inst =>
    obtain ⟨-, hlast⟩ := candidates_value.mp hvalue
    have hstate := (mem_orphans.mp (lastOrphan_mem hlast)).2
    have hpolicy : d.policy inst.workflow = some .auto := by
      simp only [lastOrphan, and_eq_true, isAuto, decide_eq_true_eq] at hlast
      exact hlast.1
    have haccepted : startResume (d.policy inst.workflow) inst = true := by
      simp [startResume, hpolicy, hstate, InstanceState.resumable]
    cases hdescendant : hasResumeDescendant d.rows inst.id <;>
      cases hsettled : d.taskSettled inst.task <;>
      simp [Option.filter, picks, hlast, hdescendant, hsettled, hfresh, haccepted]

/-- The keys are distinct, so a claim is never found taken. -/
theorem foldl_resumeKey_eq {keys : List RouteKey} (hnodup : keys.Nodup)
    (hfresh : ∀ key ∈ keys, key ∉ resumed.map WorkflowInstance.key) :
    keys.foldl d.resumeKey resumed = resumed ++ keys.filterMap d.picked := by
  induction keys generalizing resumed with
  | nil => simp
  | cons key keys ih =>
    obtain ⟨hkey, hnodup⟩ := nodup_cons.mp hnodup
    have hstep := resumeKey_eq (d := d) (hfresh key mem_cons_self)
    have hrest : ∀ other ∈ keys, other ∉ (d.resumeKey resumed key).map WorkflowInstance.key := by
      intro other hother hmem
      rw [hstep, map_append, mem_append] at hmem
      rcases hmem with hold | hnew
      · exact hfresh other (mem_cons_of_mem _ hother) hold
      · obtain ⟨inst, hinst, rfl⟩ := mem_map.mp hnew
        have hsame := (picked_eq_some.mp (Option.mem_toList.mp hinst)).1
        exact hkey (hsame ▸ hother)
    rw [foldl_cons, ih hnodup hrest, hstep, append_assoc]
    congr 1
    cases hpicked : d.picked key with
    | none => rw [filterMap_cons_none hpicked, Option.toList_none, nil_append]
    | some => rw [filterMap_cons_some hpicked, Option.toList_some, singleton_append]

theorem resumeAutoInterrupted_eq :
    d.resumeAutoInterrupted = d.candidates.order.filterMap d.picked := by
  have hnodup : d.candidates.order.Nodup := Latest.nodup_order_ofList _ _
  exact (foldl_resumeKey_eq hnodup (by simp)).trans (nil_append _)

theorem mem_resumeAutoInterrupted : inst ∈ d.resumeAutoInterrupted ↔ d.picks inst = true := by
  rw [resumeAutoInterrupted_eq, mem_filterMap]
  constructor
  · rintro ⟨key, -, hpicked⟩
    exact (picked_eq_some.mp hpicked).2
  · intro hpicks
    have hvalue : d.candidates.value inst.key = some inst :=
      candidates_value.mpr ⟨rfl, picks_lastOrphan hpicks⟩
    have hseen : inst.key ∈ d.candidates.order :=
      (Latest.mem_order_ofList _).mpr (Option.isSome_iff_exists.mpr ⟨inst, hvalue⟩)
    exact ⟨inst.key, hseen, picked_eq_some.mpr ⟨rfl, hpicks⟩⟩

theorem resumeAutoInterrupted_keys_nodup :
    (d.resumeAutoInterrupted.map WorkflowInstance.key).Nodup := by
  have hsublist : ∀ keys : List RouteKey,
      List.Sublist ((keys.filterMap d.picked).map WorkflowInstance.key) keys := by
    intro keys
    induction keys with
    | nil => exact Sublist.slnil
    | cons key keys ih =>
      cases hpicked : d.picked key with
      | none =>
        rw [filterMap_cons_none hpicked]
        exact ih.cons key
      | some =>
        rw [filterMap_cons_some hpicked, map_cons, (picked_eq_some.mp hpicked).1]
        exact ih.cons_cons key
  rw [resumeAutoInterrupted_eq]
  exact (Latest.nodup_order_ofList _ _).sublist (hsublist _)

/-! ## What the pass guarantees -/

/-- Every instance the pass continues is an interrupted top-level run, the newest of its
task and workflow and not continued before, and the only one it continues for them. -/
structure ContinuesRightly (d : Startup) : Prop where
  interrupted : ∀ inst ∈ d.resumeAutoInterrupted, inst.state = .blocked .interrupted
  topLevel : ∀ inst ∈ d.resumeAutoInterrupted, inst.parent = none
  newest : ∀ inst ∈ d.resumeAutoInterrupted, ∀ other ∈ d.rows, other.key = inst.key →
    other.createdAt ≤ inst.createdAt
  first : ∀ inst ∈ d.resumeAutoInterrupted, ∀ other ∈ d.rows, other.resumedFrom ≠ some inst.id
  single : (d.resumeAutoInterrupted.map WorkflowInstance.key).Nodup

/-- No orphan that the pass picks is a sub-workflow's, and none has been followed by an
instance of its task and workflow that is not interrupted. -/
def orphansCurrent (d : Startup) : Bool :=
  d.rows.all fun inst => !d.picks inst || (inst.parent = none && d.rows.all fun other =>
    other.key ≠ inst.key || other.state = .blocked .interrupted || other.createdAt ≤ inst.createdAt)

theorem orphansCurrent_iff : d.orphansCurrent = true ↔
    ∀ inst ∈ d.resumeAutoInterrupted, inst.parent = none ∧ ∀ other ∈ d.rows,
      other.key = inst.key → other.state = .blocked .interrupted ∨
        other.createdAt ≤ inst.createdAt := by
  have hrows : ∀ inst, d.picks inst = true → inst ∈ d.rows := fun inst hpicks =>
    (mem_orphans.mp (lastOrphan_mem (picks_lastOrphan hpicks))).1
  simp only [orphansCurrent, all_eq_true, or_eq_true, and_eq_true,
    Bool.not_eq_eq_eq_not, Bool.not_true, decide_eq_true_eq, mem_resumeAutoInterrupted]
  constructor
  · intro hall inst hpicks
    have hcase := (hall inst (hrows inst hpicks)).resolve_left (by simp [hpicks])
    refine ⟨hcase.1, fun other hother hkey => ?_⟩
    rcases hcase.2 other hother with (hne | hstate) | hle
    · exact absurd hkey hne
    · exact .inl hstate
    · exact .inr hle
  · intro hall inst _
    by_cases hpicks : d.picks inst = true
    · obtain ⟨hparent, hothers⟩ := hall inst hpicks
      refine .inr ⟨hparent, fun other hother => ?_⟩
      by_cases hkey : other.key = inst.key
      · rcases hothers other hother hkey with hstate | hle
        · exact .inl (.inr hstate)
        · exact .inr hle
      · exact .inl (.inl hkey)
    · exact .inl (by simpa using hpicks)

/-- For every configuration and every content of the tables, the pass continues what it
should exactly when the orphans it picks are current. -/
theorem continuesRightly_iff (d : Startup) : ContinuesRightly d ↔ d.orphansCurrent = true := by
  rw [orphansCurrent_iff]
  constructor
  · intro hright inst hinst
    exact ⟨hright.topLevel inst hinst,
      fun other hother hkey => .inr (hright.newest inst hinst other hother hkey)⟩
  · intro hcurrent
    have hlast : ∀ inst ∈ d.resumeAutoInterrupted, d.lastOrphan inst = true := fun inst hinst =>
      picks_lastOrphan (mem_resumeAutoInterrupted.mp hinst)
    refine ⟨?_, fun inst hinst => (hcurrent inst hinst).1, ?_, ?_, resumeAutoInterrupted_keys_nodup⟩
    · intro inst hinst
      exact (mem_orphans.mp (lastOrphan_mem (hlast inst hinst))).2
    · intro inst hinst other hother hkey
      rcases (hcurrent inst hinst).2 other hother hkey with hstate | hle
      · exact lastOrphan_newest (hlast inst hinst) (mem_orphans.mpr ⟨hother, hstate⟩) hkey
      · exact hle
    · intro inst hinst other hother hsame
      have hpicks := mem_resumeAutoInterrupted.mp hinst
      simp only [picks, and_eq_true, hasResumeDescendant, not_eq_eq_eq_not,
        Bool.not_true, any_eq_false, decide_eq_true_eq] at hpicks
      exact hpicks.1.2 other hother hsame

/-! ## A run stopped and dispatched again

The operator stops a run, the next poll starts another one in its place, and this one
waits for an approval when the daemon restarts. -/

def stoppedRun : WorkflowInstance where
  id := 1
  task := "task-1"
  workflow := "deliver"
  state := .blocked .interrupted
  createdAt := 10

def parkedRun : WorkflowInstance :=
  { stoppedRun with id := 2, state := .blocked .approval, createdAt := 20 }

def stoppedThenParked : Startup where
  policy workflow := if workflow = "deliver" then some .auto else none
  tasks task := if task = "task-1" then some .running else none
  rows := [stoppedRun, parkedRun]

/-- The older run is continued beside the one that waits. -/
theorem stoppedThenParked_not_right : stoppedThenParked.resumeAutoInterrupted = [stoppedRun] ∧
      ¬ ContinuesRightly stoppedThenParked := by
  refine ⟨by decide, ?_⟩
  intro hright
  have hle : parkedRun.createdAt ≤ stoppedRun.createdAt :=
    hright.newest stoppedRun (by decide) parkedRun (by decide) rfl
  nomatch hle

end Startup

end Apiary.Daemon
