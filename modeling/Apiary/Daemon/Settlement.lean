import Apiary.Daemon.Terminal

/-!
# Settling the jobs of remote workers

The control plane mirrors the end of a job that a remote worker ran: in the row that was
reserved for it, or in a row of its own.  A job is settled when its worker reports and again
by every daemon that starts, at the same time as others.
-/

namespace Apiary.Daemon

open List Machine

/-- The next operation of a call on the database. -/
inductive SettleStage where
  | readReserved
  | leave
  | readQueued
  | listInstances
  | create
  | account
  | ended
  deriving DecidableEq

/-- `reserved` is the state of the row that the payload of the job names, and `queueRow` that
of `queue-<job>`.  `instances` are the times at which the other instances of the workflow and
the task were created.  `outcomes` and `decrements` count what the calls have recorded. -/
structure Settlement where
  job : Queue.JobState
  created : ℕ
  reserved : Option InstanceState
  queueRow : Option InstanceState := none
  instances : List ℕ := []
  calls : List SettleStage := []
  outstanding : ℕ := 0
  outcomes : ℕ := 0
  decrements : ℕ := 0

/-- `fail` is an error or a canceled context.  `insert` and `move` are what runs, operators and
the settling of other jobs write: a reservation precedes its job, and no row is queued again. -/
inductive SettleEvent where
  | settle
  | advance (call : ℕ) (now : ℕ)
  | fail (call : ℕ)
  | restart
  | insert (created : ℕ)
  | move (state : InstanceState)

namespace Settlement

variable (s : Settlement)

/-- `settleRemoteQueueJob`, one operation at a time. -/
def settleRemoteQueueJob (now : ℕ) : SettleStage → Settlement × SettleStage
  | .readReserved => (s, if s.reserved.isSome then .leave else .readQueued)
  | .leave =>
    if s.reserved = some .queued then
      ({ s with reserved := instanceStateForJob s.job, outcomes := s.outcomes + 1 }, .account)
    else (s, .ended)
  | .readQueued => (s, if s.queueRow.isSome then .ended else .listInstances)
  | .listInstances => (s, if s.instances.any (s.created ≤ ·) then .ended else .create)
  | .create =>
    if s.queueRow.isSome then (s, .ended)
    else
      ({ s with
        queueRow := instanceStateForJob s.job
        instances := s.instances ++ [now]
        outcomes := s.outcomes + 1 }, .account)
  | .account =>
    ({ s with outstanding := s.outstanding - 1, decrements := s.decrements + 1 }, .ended)
  | .ended => (s, .ended)

def step : SettleEvent → Option Settlement
  | .settle =>
    if s.job.isTerminal then some { s with calls := s.calls ++ [.readReserved] } else none
  | .advance i now => s.calls[i]?.map fun stage =>
    let out := s.settleRemoteQueueJob now stage
    { out.1 with calls := s.calls.set i out.2 }
  | .fail i => s.calls[i]?.map fun _ => { s with calls := s.calls.set i .ended }
  | .restart => some { s with calls := [] }
  | .insert created => some { s with instances := s.instances ++ [created] }
  | .move state =>
    if s.reserved.isNone || state = .queued then none else some { s with reserved := some state }

/-- The row in which the end of the job is recorded has been written. -/
def marked : Bool :=
  match s.reserved with
  | some state => state ≠ .queued
  | none => s.queueRow.isSome

end Settlement

/-- A call that has found no reservation. -/
@[simp]
def SettleStage.unreserved : SettleStage → Bool
  | .readQueued | .listInstances | .create => true
  | _ => false

structure SettleOk (s : Settlement) : Prop where
  calls : ∀ stage ∈ s.calls, stage.unreserved = true → s.reserved = none
  once : s.outcomes = 0 ∨ s.outcomes = 1 ∧ s.marked = true
  counted : s.decrements + s.calls.countP (· = .account) ≤ s.outcomes

namespace SettleOk

variable {s t : Settlement} {stage : SettleStage} {i now : ℕ}

variable (hs : SettleOk s)

include hs

/-- A call goes on, in a state `t` in which no reservation has come or gone. -/
theorem setCall (stage' : SettleStage) (hat : s.calls[i]? = some stage)
    (hreserved : t.reserved = none ↔ s.reserved = none)
    (hfree : stage'.unreserved = true → s.reserved = none)
    (honce : t.outcomes = 0 ∨ t.outcomes = 1 ∧ t.marked = true)
    (hcounted : t.decrements + s.outcomes + (decide (stage' = .account)).toNat ≤
      s.decrements + t.outcomes + (decide (stage = .account)).toNat) :
    SettleOk { t with calls := s.calls.set i stage' } where
  calls other hother hun := by
    rcases mem_or_eq_of_mem_set hother with hold | rfl
    · exact hreserved.mpr (hs.calls other hold hun)
    · exact hreserved.mpr (hfree hun)
  once := honce
  counted := by
    have hcount := Table.countP_set hat (· = SettleStage.account) stage'
    have hold := hs.counted
    dsimp only
    omega

theorem goOn (stage' : SettleStage) (hat : s.calls[i]? = some stage)
    (hfree : stage'.unreserved = true → s.reserved = none) (hstage : stage' ≠ .account) :
    SettleOk { s with calls := s.calls.set i stage' } := by
  refine hs.setCall stage' hat .rfl hfree hs.once ?_
  simp [hstage]

theorem advance (hat : s.calls[i]? = some stage) :
    SettleOk { (s.settleRemoteQueueJob now stage).1 with
      calls := s.calls.set i (s.settleRemoteQueueJob now stage).2 } := by
  have hfree := hs.calls stage (mem_of_getElem? hat)
  have hopen : s.marked = false → s.outcomes = 0 := fun hopen =>
    hs.once.resolve_right fun h => absurd h.2 (by simp [hopen])
  have hended := hs.goOn .ended hat (by simp) (by simp)
  cases stage <;> rw [Settlement.settleRemoteQueueJob]
  case readReserved =>
    cases hreserved : s.reserved with
    | none => exact hs.goOn .readQueued hat (fun _ => hreserved) (by simp)
    | some => exact hs.goOn .leave hat (by simp) (by simp)
  case leave =>
    split_ifs with hqueued
    · have hzero := hopen (by simp [Settlement.marked, hqueued])
      refine hs.setCall .account hat (by simp [hqueued]) (by simp) (.inr ⟨?_, ?_⟩) ?_
      · simp [hzero]
      · simp [Settlement.marked]
        cases s.job <;> simp [instanceStateForJob]
      · exact Nat.le_refl _
    · exact hended
  case readQueued =>
    refine hs.goOn _ hat (fun _ => hfree rfl) ?_
    split <;> simp
  case listInstances =>
    refine hs.goOn _ hat (fun _ => hfree rfl) ?_
    split <;> simp
  case create =>
    split_ifs with hnone
    · exact hended
    · have hreserved := hfree rfl
      have hzero := hopen (by simpa [Settlement.marked, hreserved] using hnone)
      refine hs.setCall .account hat .rfl (by simp) (.inr ⟨?_, ?_⟩) ?_
      · simp [hzero]
      · simp [Settlement.marked, hreserved]
      · exact Nat.le_refl _
  case account =>
    refine hs.setCall .ended hat .rfl (by simp) hs.once ?_
    simp
    omega
  case ended => exact hended

theorem step {ev : SettleEvent} (hstep : s.step ev = some t) : SettleOk t := by
  cases ev with
  | settle =>
    obtain ⟨-, ⟨⟩⟩ := Option.ite_none_right_eq_some.mp hstep
    refine ⟨?_, hs.once, by simpa using hs.counted⟩
    simpa [or_imp, forall_and] using hs.calls
  | advance =>
    obtain ⟨stage, hat, rfl⟩ := Option.map_eq_some_iff.mp hstep
    exact hs.advance hat
  | fail =>
    obtain ⟨stage, hat, rfl⟩ := Option.map_eq_some_iff.mp hstep
    exact hs.goOn .ended hat (by simp) (by simp)
  | restart =>
    cases hstep
    exact ⟨by simp, hs.once, (Nat.le_add_right _ _).trans hs.counted⟩
  | insert => exact Option.some.inj hstep ▸ ⟨hs.calls, hs.once, hs.counted⟩
  | move =>
    obtain ⟨hmoved, ⟨⟩⟩ := Option.ite_none_left_eq_some.mp hstep
    rw [Bool.or_eq_true, not_or, Option.isNone_iff_eq_none, decide_eq_true_eq] at hmoved
    refine ⟨fun stage hstage hun => absurd (hs.calls stage hstage hun) hmoved.1, ?_, hs.counted⟩
    exact hs.once.imp_right fun h => ⟨h.1, by simpa [Settlement.marked] using hmoved.2⟩

end SettleOk

/-- However often a job is settled, and whatever is written at the same time, one outcome is
recorded at most and the count of its task goes down once at most. -/
theorem settled_at_most_once {job : Queue.JobState} {created outstanding : ℕ}
    {reserved queueRow : Option InstanceState} {instances : List ℕ} {es : List SettleEvent}
    {t : Settlement} (hrun : exec Settlement.step
      ⟨job, created, reserved, queueRow, instances, [], outstanding, 0, 0⟩ es = some t) :
    t.outcomes ≤ 1 ∧ t.decrements ≤ t.outcomes := by
  have ht : SettleOk t := exec_invariant_of_step (fun _ _ _ hs hstep => hs.step hstep)
    ⟨by simp, .inl rfl, by simp⟩ hrun
  have honce := ht.once
  have hcounted := ht.counted
  omega

/-- A reserved job is settled by its worker's report and by a daemon that starts. -/
theorem settled_twice_at_once : ∃ t, exec Settlement.step
    ⟨.succeeded, 5, some .queued, none, [], [], 2, 0, 0⟩
    [.settle, .settle, .advance 0 6, .advance 1 6, .advance 1 6, .advance 0 6, .advance 1 6] =
      some t ∧ t.outstanding = 1 ∧ t.outcomes ≤ 1 ∧ t.decrements ≤ t.outcomes :=
  ⟨_, exec_get (by decide), by decide, settled_at_most_once (exec_get (by decide))⟩

end Apiary.Daemon
