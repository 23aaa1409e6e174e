import Apiary.Core.Machine
import Apiary.Workflow.Worker

/-!
# The two modes of a foreach step

Items run one after the other, or each in a goroutine of its own that waits for one of the
global slots.  The modes are separate code, which counts the items that passed and failed.
-/

namespace Apiary.Workflow

open Config List Machine

structure ForeachResult where
  passed : ℕ := 0
  failed : ℕ := 0

def ForeachResult.add (fr : ForeachResult) (res : StepResult) : ForeachResult :=
  if res.success then { fr with passed := fr.passed + 1 } else { fr with failed := fr.failed + 1 }

/-- What `foreachStepResult` makes of the counts. -/
def ForeachResult.report (fr : ForeachResult) (stepID : String) : StepResult where
  success := fr.failed == 0
  output := "foreach: " ++ toString fr.passed ++ " passed, " ++ toString fr.failed ++ " failed"
  summary :=
    if fr.failed = 0 then stepID ++ ": processed " ++ toString fr.passed ++ " item(s)" else ""

section Modes

variable (failFast : Bool) (own : StepConfig → StepResult)

/-- The items whose bodies ran, and the counts. -/
def executeForeachSequential (fr : ForeachResult) :
    List StepConfig → List StepConfig × ForeachResult
  | [] => ([], fr)
  | item :: items =>
    if failFast && !(own item).success then ([item], fr.add (own item))
    else
      let rest := executeForeachSequential (fr.add (own item)) items
      (item :: rest.1, rest.2)

/-- `items` are those that the loop has not reached, `spawned` those whose goroutines wait for a
slot.  Other steps hold `others` of the slots. -/
structure Fanout where
  items : List StepConfig
  spawned : List StepConfig := []
  running : List StepConfig := []
  ran : List StepConfig := []
  fr : ForeachResult := {}
  stopped : Bool := false
  others : ℕ := 0

inductive FanoutEvent where
  | spawn
  | halt
  | acquire (i : ℕ)
  | finish (i : ℕ)
  | others (n : ℕ)

/-- The steps of `executeForeachConcurrent`. -/
def Fanout.step (concurrency slots : ℕ) (s : Fanout) : FanoutEvent → Option Fanout
  | .spawn =>
    match s.items with
    | [] => none
    | item :: items =>
      if s.spawned.length + s.running.length < concurrency && !(failFast && s.stopped) then
        some { s with items := items, spawned := s.spawned ++ [item] }
      else none
  | .halt => if failFast && s.stopped then some { s with items := [] } else none
  | .acquire i => s.spawned[i]?.bind fun item =>
    if s.running.length + s.others < slots then
      some { s with
        spawned := s.spawned.eraseIdx i, running := s.running ++ [item], ran := s.ran ++ [item] }
    else none
  | .finish i => s.running[i]?.map fun item =>
    { s with
      running := s.running.eraseIdx i
      fr := s.fr.add (own item)
      stopped := s.stopped || failFast && !(own item).success }
  | .others n => if s.running.length + n ≤ slots then some { s with others := n } else none

def Fanout.left (s : Fanout) : ℕ :=
  3 * s.items.length + 2 * s.spawned.length + s.running.length

def Fanout.Ended (s : Fanout) : Prop := s.items = [] ∧ s.spawned = [] ∧ s.running = []

end Modes

variable {own : StepConfig → StepResult} {items : List StepConfig} {s t : Fanout}
  {concurrency slots : ℕ}

/-- The counts of items that are over. -/
def tally (own : StepConfig → StepResult) (items : List StepConfig) (fr : ForeachResult) :
    ForeachResult :=
  items.foldl (fun fr item => fr.add (own item)) fr

theorem add_comm_add (fr : ForeachResult) (res other : StepResult) :
    (fr.add res).add other = (fr.add other).add res := by
  cases hres : res.success <;> cases hother : other.success <;>
    simp [ForeachResult.add, hres, hother]

theorem tally_perm {finished : List StepConfig} (hperm : finished.Perm items) (fr : ForeachResult) :
    tally own finished fr = tally own items fr :=
  hperm.foldl_eq' (fun a _ b _ fr => add_comm_add fr (own a) (own b)) fr

theorem tally_eq (fr : ForeachResult) : tally own items fr =
    ⟨fr.passed + ((items.map own).filter fun res => res.success).length,
      fr.failed + ((items.map own).filter fun res => !res.success).length⟩ := by
  induction items generalizing fr with
  | nil => rfl
  | cons item items ih =>
    rw [tally, foldl_cons, ← tally, ih, map_cons]
    cases hres : (own item).success <;> simp [ForeachResult.add, hres] <;> omega

theorem executeForeachSequential_eq (fr : ForeachResult) :
    executeForeachSequential false own fr items = (items, tally own items fr) := by
  induction items generalizing fr with
  | nil => rfl
  | cons item items ih => simp [executeForeachSequential, ih, tally]

/-- Every item is in one place, and the bodies that are over were counted. -/
def FanoutOk (own : StepConfig → StepResult) (items : List StepConfig) (s : Fanout) : Prop :=
  ∃ finished, s.fr = tally own finished {} ∧ (finished ++ s.running).Perm s.ran ∧
    (s.ran ++ s.spawned ++ s.items).Perm items

theorem perm_eraseIdx {i : ℕ} {item : StepConfig} (hat : items[i]? = some item) :
    items.Perm (item :: items.eraseIdx i) := by
  obtain ⟨hi, rfl⟩ := List.getElem?_eq_some_iff.mp hat
  exact (getElem_cons_eraseIdx_perm hi).symm

theorem FanoutOk.step {ev : FanoutEvent} (hs : FanoutOk own items s)
    (hstep : s.step false own concurrency slots ev = some t) : FanoutOk own items t := by
  obtain ⟨finished, hfr, hran, hplaces⟩ := hs
  cases ev with
  | spawn =>
    rw [Fanout.step] at hstep
    split at hstep
    · cases hstep
    · rename_i hitems
      obtain ⟨-, ⟨⟩⟩ := Option.ite_none_right_eq_some.mp hstep
      rw [hitems] at hplaces
      exact ⟨finished, hfr, hran, by simpa using hplaces⟩
  | halt => cases hstep
  | acquire =>
    obtain ⟨item, hitem, hacquire⟩ := Option.bind_eq_some_iff.mp hstep
    obtain ⟨-, ⟨⟩⟩ := Option.ite_none_right_eq_some.mp hacquire
    refine ⟨finished, hfr, ?_, Perm.trans ?_ hplaces⟩
    · simpa using hran.append_right [item]
    · simpa using ((perm_eraseIdx hitem).symm.append_left s.ran).append_right s.items
  | finish =>
    obtain ⟨item, hitem, ⟨⟩⟩ := Option.map_eq_some_iff.mp hstep
    refine ⟨finished ++ [item], by simp [hfr, tally], ?_, hplaces⟩
    simpa using ((perm_eraseIdx hitem).symm.append_left finished).trans hran
  | others =>
    obtain ⟨-, ⟨⟩⟩ := Option.ite_none_right_eq_some.mp hstep
    exact ⟨finished, hfr, hran, hplaces⟩

/-- While something is left, one of the goroutines can go on once the other steps have given
their slots back, and then less is left. -/
theorem exists_step (hconcurrency : 0 < concurrency) (hslots : 0 < slots) (hleft : ¬ s.Ended) :
    ∃ ev t, { s with others := 0 }.step false own concurrency slots ev = some t ∧
      t.left < s.left := by
  obtain ⟨items, spawned, running, ran, fr, stopped, others⟩ := s
  cases running with
  | cons => exact ⟨.finish 0, _, rfl, by simp [Fanout.left]⟩
  | nil =>
    cases spawned with
    | cons =>
      refine ⟨.acquire 0, _, if_pos hslots, ?_⟩
      simp [Fanout.left]
      omega
    | nil =>
      cases items with
      | nil => exact absurd ⟨rfl, rfl, rfl⟩ hleft
      | cons =>
        refine ⟨.spawn, _, if_pos (by simpa using hconcurrency), ?_⟩
        simp [Fanout.left]
        omega

/-- Without `fail_fast` both modes run the body of every item once and report the same, in
whatever order the items end. -/
theorem foreach_modes_agree (own : StepConfig → StepResult) (items : List StepConfig)
    (step : StepConfig) (concurrency slots : ℕ) :
    let sequential := executeForeachSequential false own {} items
    sequential.1 = items ∧ sequential.2.passed + sequential.2.failed = items.length ∧
    sequential.2.report step.id = (foreachStepResult step (items.map own)).res ∧
    ∀ es t, exec (Fanout.step false own concurrency slots) { items := items } es = some t →
      (t.Ended → t.ran.Perm items ∧ t.fr = sequential.2 ∧
        t.fr.report step.id = sequential.2.report step.id) ∧
      (0 < concurrency → 0 < slots → ¬ t.Ended → ∃ ev u,
        { t with others := 0 }.step false own concurrency slots ev = some u ∧ u.left < t.left) := by
  dsimp only
  rw [executeForeachSequential_eq]
  refine ⟨rfl, ?_, ?_, fun es t hrun => ⟨fun hended => ?_, exists_step⟩⟩
  · have htotal := (items.map own).length_eq_length_filter_add fun res => res.success
    simpa [tally_eq] using htotal.symm
  · simp only [tally_eq, ForeachResult.report, foreachStepResult, Nat.zero_add]
  have hok : FanoutOk own items t :=
    exec_invariant_of_step (fun _ _ _ hs hstep => FanoutOk.step hs hstep)
      ⟨[], rfl, .refl _, .refl _⟩ hrun
  obtain ⟨finished, hfr, hran, hplaces⟩ := hok
  obtain ⟨hitems, hspawned, hrunning⟩ := hended
  rw [hrunning, append_nil] at hran
  rw [hitems, hspawned, append_nil, append_nil] at hplaces
  have hsame : t.fr = tally own items {} := hfr.trans (tally_perm (hran.trans hplaces) {})
  exact ⟨hplaces, hsame, by rw [hsame]⟩

end Apiary.Workflow
