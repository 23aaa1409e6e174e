import Apiary.Core.Machine
import Mathlib.Logic.Function.Basic

/-!
# Admission through the agents' semaphores

Each agent has a buffered channel as its semaphore.  A dispatch or a wake takes the channel
of its agent, and its goroutine then waits for a place in it.  A change of `max_workers` puts
a new channel in the place of the old one, and what holds or waits for a place in the old one
is not counted in the new one.
-/

namespace Apiary.Daemon

open Machine Function List Option

inductive AdmissionSite where
  | fanOut
  | prEvent
  | approvalPoll
  | approvalHTTP
  | wait

inductive AdmissionStage where
  | waiting
  | admitted
  | gone
  deriving DecidableEq

/-- A goroutine with the channel it took: the `sem`-th of its agent. -/
structure AgentRun where
  site : AdmissionSite
  agent : String
  sem : ℕ
  stage : AdmissionStage := .waiting

/-- The channels of the agents; `known` are the agents of the configuration. -/
structure Admission where
  known : String → Bool
  maxWorkers : String → ℕ
  current : String → ℕ
  capacity : String → ℕ → ℕ
  runs : List AgentRun

/-- `max_workers` counts as at least one. -/
def Admission.start (known : String → Bool) (maxWorkers : String → ℕ) : Admission where
  known := known
  maxWorkers agent := max 1 (maxWorkers agent)
  current _ := 0
  capacity agent _ := max 1 (maxWorkers agent)
  runs := []

inductive AdmissionEvent where
  | take (site : AdmissionSite) (agent : String)
  | enter (index : ℕ)
  | leave (index : ℕ)
  | updateAgentConfig (agent : String) (maxWorkers : ℕ)

namespace Admission

variable (s : Admission)

/-- The places taken in one channel. -/
def holders (agent : String) (sem : ℕ) : ℕ :=
  s.runs.countP fun r => r.stage = .admitted && r.agent = agent && r.sem = sem

/-- The runs admitted under an agent, through any of its channels. -/
def admitted (agent : String) : ℕ := s.runs.countP fun r => r.stage = .admitted && r.agent = agent

def setStage (index : ℕ) (stage : AdmissionStage) : Admission :=
  { s with runs := s.runs.modify index fun r => { r with stage := stage } }

/-- A run that waits is gone when the daemon shuts down, and one that was admitted when it
ends.  An agent that is not configured has no channel to take. -/
def step : AdmissionEvent → Option Admission
  | .take site agent =>
    if s.known agent then
      some { s with runs := s.runs ++ [{ site := site, agent := agent, sem := s.current agent }] }
    else none
  | .enter index =>
    match s.runs[index]? with
    | some r =>
      if r.stage = .waiting ∧ s.holders r.agent r.sem < s.capacity r.agent r.sem then
        some (s.setStage index .admitted)
      else none
    | none => none
  | .leave index => some (s.setStage index .gone)
  | .updateAgentConfig agent maxWorkers =>
    if s.known agent && 0 < maxWorkers then
      some { s with
        maxWorkers := update s.maxWorkers agent maxWorkers
        current := update s.current agent (s.current agent + 1)
        capacity := update s.capacity agent
          (update (s.capacity agent) (s.current agent + 1) maxWorkers) }
    else none

/-- Whoever can enter finds fewer runs admitted than its agent may have. -/
def Bounded : Prop :=
  ∀ index r, s.runs[index]? = some r → (s.step (.enter index)).isSome →
    s.admitted r.agent < s.maxWorkers r.agent

/-- `max_workers` changes while nothing holds the agent's semaphore or waits for it. -/
def resizedIdle : AdmissionEvent → Bool
  | .updateAgentConfig agent _ => s.runs.all fun r => r.agent ≠ agent || r.stage = .gone
  | _ => true

/-- What is not gone has the current channel, and that is as large as it should be. -/
structure OnCurrent : Prop where
  runs : ∀ r ∈ s.runs, r.stage ≠ .gone → r.sem = s.current r.agent
  capacity : ∀ agent, s.capacity agent (s.current agent) = s.maxWorkers agent

variable {s} {t : Admission}

theorem OnCurrent.bounded (hs : s.OnCurrent) : s.Bounded := by
  intro index r hr henter
  have hmem := mem_of_getElem? hr
  have hroom : r.stage = .waiting ∧ s.holders r.agent r.sem < s.capacity r.agent r.sem := by
    simpa [step, hr] using henter
  have hsem := hs.runs r hmem (by simp [hroom.1])
  have hholders : s.admitted r.agent = s.holders r.agent r.sem := by
    refine countP_congr fun x hx => ?_
    simp only [Bool.and_eq_true, decide_eq_true_eq, hsem]
    refine ⟨fun h => ⟨h, ?_⟩, fun h => h.1⟩
    rw [hs.runs x hx (by simp [h.1]), h.2]
  rw [hholders, ← hs.capacity, ← hsem]
  exact hroom.2

/-- A run moves to a stage that it cannot come back from. -/
theorem OnCurrent.setStage (hs : s.OnCurrent) {index : ℕ} {stage : AdmissionStage}
    (hlive : stage = .gone ∨ ∀ r, s.runs[index]? = some r → r.stage ≠ .gone) :
    (s.setStage index stage).OnCurrent := by
  refine ⟨fun r hr hstage => ?_, hs.capacity⟩
  obtain ⟨i, hi⟩ := mem_iff_getElem?.mp hr
  rw [Admission.setStage, getElem?_modify] at hi
  obtain ⟨old, hold, rfl⟩ := map_eq_some_iff.mp hi
  have hkept := hs.runs old (mem_of_getElem? hold)
  by_cases hhere : index = i
  · subst hhere
    rw [if_pos rfl] at hstage ⊢
    exact hkept (hlive.resolve_left hstage old hold)
  · rw [if_neg hhere] at hstage ⊢
    exact hkept hstage

theorem OnCurrent.step {ev : AdmissionEvent} (hs : s.OnCurrent) (hidle : s.resizedIdle ev = true)
    (hstep : s.step ev = some t) : t.OnCurrent := by
  cases ev with
  | take =>
    simp only [Admission.step, ite_none_right_eq_some, some.injEq] at hstep
    refine hstep.2 ▸ ⟨?_, hs.capacity⟩
    exact forall_mem_append.mpr ⟨hs.runs, forall_mem_singleton.mpr fun _ => rfl⟩
  | enter =>
    rw [Admission.step] at hstep
    split at hstep
    · rename_i hr
      rw [ite_none_right_eq_some, some.injEq] at hstep
      refine hstep.2 ▸ hs.setStage (.inr fun x hx => ?_)
      rw [some.inj (hx.symm.trans hr), hstep.1.1]
      decide
    · cases hstep
  | leave => exact some.inj hstep ▸ hs.setStage (.inl rfl)
  | updateAgentConfig agent =>
    simp only [Admission.step, ite_none_right_eq_some, some.injEq] at hstep
    refine hstep.2 ▸ ⟨fun r hr hstage => ?_, fun other => ?_⟩
    · have hne : r.agent ≠ agent := by simpa [hstage] using all_eq_true.mp hidle r hr
      exact (hs.runs r hr hstage).trans (Function.update_of_ne hne _ _).symm
    · by_cases hsame : other = agent
      · simp [hsame]
      · simpa [Function.update_of_ne hsame] using hs.capacity other

end Admission

/-- In every run whose changes of `max_workers` find nothing at the agent's semaphore, a run
is admitted only while fewer than `max_workers` are. -/
theorem admitted_within_max_workers {known : String → Bool} {maxWorkers : String → ℕ}
    {es : List AdmissionEvent} {t : Admission}
    (hidle : Machine.Guarded Admission.step (fun s ev => s.resizedIdle ev = true)
      (.start known maxWorkers) es)
    (hrun : exec Admission.step (.start known maxWorkers) es = some t) : t.Bounded := by
  have hstart : (Admission.start known maxWorkers).OnCurrent :=
    ⟨fun _ h => absurd h not_mem_nil, fun _ => rfl⟩
  have hcurrent := exec_invariant (fun _ _ _ hs hidle hstep => hs.step hidle hstep)
    hstart hidle hrun
  exact hcurrent.bounded

/-- One engineer at a time, and a second place once the first has left. -/
def widened : List AdmissionEvent :=
  [.take .fanOut "engineer", .enter 0, .leave 0, .updateAgentConfig "engineer" 2,
    .take .prEvent "engineer", .enter 1, .take .wait "engineer"]

theorem widened_bounded : ∃ t,
    exec Admission.step (.start (fun _ => true) fun _ => 1) widened = some t ∧
      t.admitted "engineer" = 1 ∧ t.Bounded := by
  refine ⟨_, exec_get (by decide), by decide, ?_⟩
  exact admitted_within_max_workers (by decide) (exec_get _)

/-- The semaphore is replaced while an engineer runs, and a second one is let in. -/
theorem engineer_replaced_busy : ∃ t,
    exec Admission.step (.start (fun _ => true) fun _ => 1) [.take .fanOut "engineer",
      .enter 0, .updateAgentConfig "engineer" 1, .take .fanOut "engineer"] = some t ∧
      ¬ t.Bounded := by
  refine ⟨_, rfl, fun hbounded => ?_⟩
  nomatch hbounded 1 _ rfl (by decide)

end Apiary.Daemon
