import Apiary.Workflow.Retries

/-!
# The result channel

The channel on which workers report has room for one result more than there are
declared steps.  A step is picked only while it is pending, and nothing in
flight is pending until a failure has asked for a loop-back, so a declared step
is never in flight more often than it is declared and no send blocks.
-/

namespace Apiary.Workflow

open Config List Function DriveState

variable {now : ℕ} {id : String} {ids : List String} {out : DriveState × Bool} {wr : WorkerResult}
  {rest : List WorkerResult}

/-- The steps picked in this pass and not dispatched yet. -/
def DriveState.picks (s : DriveState) : List String :=
  match s.phase with
  | .dispatch ids => ids
  | _ => []

/-- The capacity `driveDAG` gives its channel. -/
def channelCapacity (wf : WorkflowConfig) : ℕ := (order wf).length + 1

structure Metered (s : DriveState) : Prop where
  flags : ∀ ids, s.phase = .dispatch ids → s.termFail = false ∧ s.loopTarget = ""
  copies : ∀ id ∈ s.picks, s.run.state id = some .pending →
    (order s.run.wf).count id ≤ s.picks.count id
  room : ∀ id, s.inFlightIDs.count id + s.picks.count id ≤ (order s.run.wf).count id
  settled : s.termFail = false → s.loopTarget = "" →
    ∀ id ∈ s.inFlightIDs, s.run.state id ≠ some .pending
  receiving : s.phase = .recv → s.inFlight ≠ 0

section Steps

variable {e : Engine} {s t : DriveState}

/-! ## The scheduler by phase -/

theorem schedStep_top (hphase : s.phase = .top) (hstep : schedStep e now s = some t) :
    (t = { s with phase := .dispatch (pickAllRunnable s.run.wf s.run.state s.run.activated) } ∧
        s.termFail = false ∧ s.loopTarget = "" ∧ s.run.stopped = false) ∨
      (t = { s with phase := .check } ∧
        ¬ (s.termFail = false ∧ s.loopTarget = "" ∧ s.run.stopped = false)) := by
  simp only [schedStep, hphase, Bool.and_eq_true, Bool.not_eq_eq_eq_not, Bool.not_true,
    decide_eq_true_eq] at hstep
  split_ifs at hstep with hflags
  · exact .inl ⟨(Option.some.inj hstep).symm, hflags.1.1, hflags.1.2, hflags.2⟩
  · exact .inr ⟨(Option.some.inj hstep).symm, fun h => hflags ⟨⟨h.1, h.2.1⟩, h.2.2⟩⟩

theorem schedStep_dispatch (hphase : s.phase = .dispatch (id :: ids))
    (hstep : schedStep e now s = some t) :
    t = { (dispatchStep e s id).1 with
      phase := if (dispatchStep e s id).2 then .check else .dispatch ids } := by
  simp only [schedStep, hphase] at hstep
  exact (Option.some.inj hstep).symm

theorem schedStep_check (hphase : s.phase = .check) (hstep : schedStep e now s = some t) :
    (s.inFlight = 0 ∧ t = s.quiesce) ∨ (s.inFlight ≠ 0 ∧ t = { s with phase := .recv }) := by
  simp only [schedStep, hphase] at hstep
  split at hstep
  · exact .inl ⟨‹_›, (Option.some.inj hstep).symm⟩
  · exact .inr ⟨‹_›, (Option.some.inj hstep).symm⟩

/-- The loop stops dispatching only with something in flight. -/
theorem dispatchStep_full (hfull : (dispatchStep e s id).2 = true) : s.inFlight ≠ 0 := by
  have hlimit : 0 < e.concurrencyLimit := by
    rw [Engine.concurrencyLimit]
    split
    · assumption
    · exact Nat.one_pos
  rw [dispatchStep] at hfull
  split at hfull
  · cases hfull
  · cases hfull
  · split at hfull
    · split at hfull <;> cases hfull
    · cases hfull
    · split_ifs at hfull
      omega

/-- A step that was dispatched is no longer pending. -/
theorem Dispatched.not_pending (hid : id ∈ order s.run.wf)
    (hout : Dispatched s (byID s.run.wf id) id out) (hnext : out.2 = false) :
    out.1.run.state id ≠ some .pending := by
  cases hout with
  | errored | asked | condSkipped | spawned =>
    change update s.run.state id _ id ≠ _
    simp
  | routed chosen =>
    obtain ⟨state, hskips, heq⟩ := routeSplit_eq s.run (byID s.run.wf id) chosen
    dsimp only
    rw [heq, ← byID_id hid]
    rcases hskips (byID s.run.wf id).id with hsame | ⟨hskipped, -⟩
    · simp [hsame]
    · simp [hskipped]
  | full => cases hnext

/-- A full pool changes nothing. -/
theorem Dispatched.eq_of_full {step : StepConfig} (hout : Dispatched s step id out)
    (hfull : out.2 = true) : out = (s, true) := by
  cases hout with
  | full => rfl
  | _ => cases hfull

theorem Dispatched.wf {step : StepConfig} (hout : Dispatched s step id out) :
    out.1.run.wf = s.run.wf := hout.kept.wf

/-- A dispatch puts at most its own step in flight, once. -/
theorem Dispatched.count_inFlightIDs (hid : id ∈ order s.run.wf)
    (hout : Dispatched s (byID s.run.wf id) id out) (other : String) :
    out.1.inFlightIDs.count other ≤ s.inFlightIDs.count other + (if other = id then 1 else 0) := by
  have hcons : (id :: s.inFlightIDs).count other =
      s.inFlightIDs.count other + if other = id then 1 else 0 := by
    rw [count_cons]
    by_cases heq : other = id
    · simp [heq]
    · rw [if_neg heq, if_neg (by simpa using Ne.symm heq)]
  have hself := byID_id hid
  cases hout with
  | errored => exact ((push_inFlightIDs s hself _).count_eq other).trans_le hcons.le
  | asked =>
    exact ((push_inFlightIDs (s.began (byID s.run.wf id)) hself _).count_eq other).trans_le hcons.le
  | spawned =>
    exact ((spawn_inFlightIDs (s.began (byID s.run.wf id)) hself).count_eq other).trans_le hcons.le
  | _ => exact Nat.le_add_right _ _

/-! ## The invariant is kept -/

theorem picks_of_outside (hphase : ∀ ids, s.phase ≠ .dispatch ids) : s.picks = [] := by
  rw [picks]
  split
  · exact absurd ‹_› (hphase _)
  · rfl

variable (hm : Metered s)

include hm

theorem Metered.flying_not_pending (hphase : s.phase = .dispatch ids) :
    ∀ id ∈ s.inFlightIDs, s.run.state id ≠ some .pending :=
  hm.settled (hm.flags ids hphase).1 (hm.flags ids hphase).2

omit hm in
/-- Outside a round of dispatches only the room and the settled steps matter. -/
theorem Metered.outside (hphase : ∀ ids, t.phase ≠ .dispatch ids)
    (hroom : ∀ id, t.inFlightIDs.count id ≤ (order t.run.wf).count id)
    (hsettled : t.termFail = false → t.loopTarget = "" →
      ∀ id ∈ t.inFlightIDs, t.run.state id ≠ some .pending)
    (hreceiving : t.phase = .recv → t.inFlight ≠ 0) : Metered t := by
  have hpicks := picks_of_outside hphase
  refine ⟨fun ids h => absurd h (hphase ids), ?_, ?_, hsettled, hreceiving⟩
  · rw [hpicks]
    exact fun id hid => absurd hid not_mem_nil
  · simpa [hpicks] using hroom

omit hm in
/-- A state with nothing in flight, outside a pass. -/
theorem Metered.quiet (ht : WellFormed t) (hnone : t.inFlight = 0)
    (hphase : ∀ ids, t.phase ≠ .dispatch ids) (hrecv : t.phase ≠ .recv) : Metered t := by
  have hids := ht.inFlightIDs_eq_nil hnone
  refine Metered.outside hphase ?_ ?_ fun h => absurd h hrecv
  · simp [hids]
  · simp [hids]

theorem Metered.count_le (id : String) : s.inFlightIDs.count id ≤ (order s.run.wf).count id :=
  (Nat.le_add_right _ _).trans (hm.room id)

/-- The steps picked for a round are pending, so none of them is in flight. -/
theorem Metered.picked (hfail : s.termFail = false) (hloop : s.loopTarget = "") :
    Metered { s with phase := .dispatch s.run.runnable } := by
  have hfree := hm.settled hfail hloop
  refine ⟨fun _ _ => ⟨hfail, hloop⟩, ?_, ?_, fun _ _ => hfree, by simp⟩
  · intro id hid hpending
    have hcount : s.run.runnable.count id = (order s.run.wf).count id := by
      rw [DagRun.runnable, pickAllRunnable]
      exact count_filter (p := fun id => _) (mem_filter.mp hid).2
    exact hcount.ge
  · intro id
    change s.inFlightIDs.count id + s.run.runnable.count id ≤ _
    by_cases hmem : id ∈ s.inFlightIDs
    · have hnot : id ∉ s.run.runnable := by
        intro hpick
        have hpending := (mem_filter.mp hpick).2
        simp only [Bool.and_eq_true, decide_eq_true_eq] at hpending
        exact hfree id hmem hpending.1.1
      rw [count_eq_zero_of_not_mem hnot]
      exact hm.count_le id
    · rw [count_eq_zero_of_not_mem hmem, Nat.zero_add]
      exact filter_sublist.count_le id

omit hm in
theorem Dispatched.flags {step : StepConfig} (hout : Dispatched s step id out) :
    out.1.termFail = s.termFail ∧ out.1.loopTarget = s.loopTarget ∧
      out.1.run.stopped = s.run.stopped := by
  obtain ⟨⟨_, _, _, hrun⟩, hfail, hloop⟩ := hout.frame
  exact ⟨hfail, hloop, by rw [hrun]⟩

omit hm in
theorem Dispatched.mem_inFlightIDs (hid : id ∈ order s.run.wf)
    (hout : Dispatched s (byID s.run.wf id) id out) {other : String}
    (hmem : other ∈ out.1.inFlightIDs) (hne : other ≠ id) : other ∈ s.inFlightIDs := by
  have hcount := hout.count_inFlightIDs hid other
  rw [if_neg hne, Nat.add_zero] at hcount
  exact count_pos_iff.mp ((count_pos_iff.mpr hmem).trans_le hcount)

/-- One dispatch of the round keeps the steps in flight within their number. -/
theorem Metered.dispatched (hs : WellFormed s) (hphase : s.phase = .dispatch (id :: ids))
    (hout : Dispatched s (byID s.run.wf id) id out) :
    Metered { out.1 with phase := if out.2 then .check else .dispatch ids } := by
  have hid : id ∈ order s.run.wf := hs.picked _ hphase mem_cons_self
  have hpicks : s.picks = id :: ids := by rw [picks, hphase]
  have hfree := hm.flying_not_pending hphase
  have hroom := hm.room
  have hcopies := hm.copies
  rw [hpicks] at hroom hcopies
  cases hfull : out.2 with
  | true =>
    obtain rfl := hout.eq_of_full hfull
    exact Metered.outside (by simp) hm.count_le (fun _ _ => hfree) (by simp)
  | false =>
    have hnot := hout.not_pending hid hfull
    refine ⟨fun _ _ => ?_, ?_, ?_, fun _ _ => ?_, by simp⟩
    · rw [hout.flags.1, hout.flags.2.1]
      exact hm.flags _ hphase
    · intro other hother hpending
      have hne : other ≠ id := fun heq => hnot (heq ▸ hpending)
      have hold := hout.changes.of_not_allowed (by simp) hpending
      have hcount := hcopies other (mem_cons_of_mem id hother) hold
      rw [count_cons_of_ne hne.symm] at hcount
      rw [hout.wf]
      exact hcount
    · intro other
      have hflying := hout.count_inFlightIDs hid other
      have hold := hroom other
      rw [count_cons] at hold
      dsimp only
      rw [hout.wf]
      change out.1.inFlightIDs.count other + ids.count other ≤ _
      by_cases heq : other = id
      · subst heq
        simp only [beq_self_eq_true, if_true] at hold hflying
        omega
      · rw [if_neg heq] at hflying
        rw [if_neg (by simpa using Ne.symm heq)] at hold
        omega
    · intro other hother hpending
      by_cases heq : other = id
      · exact hnot (heq ▸ hpending)
      · exact hfree other (hout.mem_inFlightIDs hid hother heq)
          (hout.changes.of_not_allowed (by simp) hpending)

theorem Metered.taken (hresult : s.resultCh = wr :: rest) :
    (∀ id, (s.take rest).inFlightIDs.count id ≤ (order s.run.wf).count id) ∧
      (s.termFail = false → s.loopTarget = "" →
        ∀ id ∈ (s.take rest).inFlightIDs, s.run.state id ≠ some .pending) := by
  have hperm := take_inFlightIDs hresult
  refine ⟨fun id => ?_, fun hfail hloop id hid =>
    hm.settled hfail hloop id (hperm.mem_iff.mpr (mem_cons_of_mem _ hid))⟩
  calc (s.take rest).inFlightIDs.count id
      ≤ (wr.step.id :: (s.take rest).inFlightIDs).count id := count_le_count_cons
    _ = s.inFlightIDs.count id := (hperm.count_eq id).symm
    _ ≤ (order s.run.wf).count id := hm.count_le id

/-- A result taken from the channel leaves room for its step. -/
theorem Metered.received (hresult : s.resultCh = wr :: rest) (hstep : Received e (s.take rest) wr t) :
    Metered t := by
  obtain ⟨hroom, hsettled⟩ := hm.taken hresult
  cases hstep with
  | dropped | parking => exact Metered.outside (by simp) hroom hsettled (by simp)
  | applied hstopped hparks t happlied =>
    have htop : t.phase = .top := by cases happlied <;> rfl
    have hids : t.inFlightIDs = (s.take rest).inFlightIDs := by cases happlied <;> rfl
    refine Metered.outside (by simp [htop]) ?_ ?_ (by simp [htop])
    · rw [hids, happlied.frame.1]
      exact hroom
    · rw [hids]
      cases happlied with
      | passed =>
        intro hfail hloop id hid hpending
        have hstate := recorded_passStep_changes e s wr rest
        exact hsettled hfail hloop id hid (hstate.of_not_allowed (by simp) hpending)
      | retried target hsuccess htarget =>
        intro hfail hloop
        obtain ⟨hfail', hloop'⟩ := failureTarget_eq_some htarget
        rw [failureTarget_eq hfail' hloop'] at htarget
        exact absurd hloop (loopEdge_eq_some htarget).1
      | failed => simp

omit hm in
theorem Quiesced.outside (hquiesced : Quiesced s t) :
    (∀ ids, t.phase ≠ .dispatch ids) ∧ t.phase ≠ .recv := by
  cases hquiesced <;> simp

theorem Metered.scheduled (hs : WellFormed s) (hstep : schedStep e now s = some t) : Metered t := by
  have ht : WellFormed t := hs.scheduled (schedStep_cases hstep)
  have hsame : ∀ phase, (∀ ids, phase ≠ .dispatch ids) → (phase = .recv → s.inFlight ≠ 0) →
      Metered { s with phase := phase } :=
    fun phase hdispatch hrecv => Metered.outside hdispatch hm.count_le hm.settled hrecv
  cases schedStep_cases hstep with
  | hold | picked => exact hsame _ (by simp) (by simp)
  | pick hphase =>
    rcases schedStep_top hphase hstep with ⟨heq, hfail, hloop, -⟩ | ⟨heq, -⟩
    · exact hm.picked hfail hloop
    · simp at heq
  | dispatch id ids hphase out hout => exact hm.dispatched hs hphase hout
  | quiesce hphase hnone t hquiesced =>
    have hflight : t.inFlight = 0 := by
      cases hquiesced <;> exact hnone
    exact Metered.quiet ht hflight hquiesced.outside.1 hquiesced.outside.2
  | await hphase =>
    rcases schedStep_check hphase hstep with ⟨hnone, heq⟩ | ⟨hsome, -⟩
    · exact absurd (congrArg phase heq).symm (quiesce_cases s).outside.2
    · exact hsame _ (by simp) fun _ => hsome
  | receive wr rest hphase hresult t hreceived => exact hm.received hresult hreceived
  | discard wr dropped rest hphase hsome hresult =>
    exact Metered.outside (by simp [DriveState.take, hphase]) (hm.taken hresult).1
      (hm.taken hresult).2 (by simp [DriveState.take, hphase])
  | park wr hphase hnone =>
    exact Metered.quiet ht hnone (by simp [park]) (by simp [park])

/-- Every step of a run keeps the steps in flight within their number. -/
theorem Metered.step (hs : WellFormed s) {ev : Event} (hstep : Workflow.step e s ev = some t) :
    Metered t := by
  have ht : WellFormed t := hs.step hstep
  cases step_cases hstep with
  | sched => exact hm.scheduled hs hstep
  | worker index act w hw t hworker =>
    have hperm := workerStepped_inFlightIDs hw hworker
    obtain ⟨_, _, _, _, _, rfl⟩ := workerStepped_eq hworker
    refine ⟨hm.flags, hm.copies, ?_, ?_, hm.receiving⟩
    · intro id
      rw [hperm.count_eq id]
      exact hm.room id
    · exact fun h1 h2 id hid => hm.settled h1 h2 id (hperm.mem_iff.mp hid)
  | cancel | stop => exact ⟨hm.flags, hm.copies, hm.room, hm.settled, hm.receiving⟩
  | resolve approve memory hphase | wake hphase =>
    exact Metered.quiet ht (hs.quiet (by simp [hphase, Phase.driving])) (by simp) (by simp)

omit hm in
theorem Started.metered (hstarted : Started s) : Metered s := by
  have hs := hstarted.wellFormed
  cases hstarted <;> exact Metered.quiet hs rfl (by simp) (by simp)

/-- Nothing ever waits for room on the channel. -/
theorem Metered.inFlight_le (hs : WellFormed s) : s.inFlight ≤ (order s.run.wf).length := by
  have hlength : s.inFlightIDs.length = s.inFlight := by
    rw [inFlightIDs, length_append, length_map, length_map, hs.count]
  rw [← hlength]
  exact (subperm_ext_iff.mpr fun id _ => hm.count_le id).length_le

end Steps

end Apiary.Workflow
