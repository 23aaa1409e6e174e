import Apiary.Approval.Gate

/-!
# What one step of the approval machine can do
-/

namespace Apiary.Approval

open Config Workflow Option GateState Function

/-! ## The loop of the run -/

inductive Looped (e : Engine) (s : GateState) : Event → GateState → Prop where
  | move (ev : Event) (d : DriveState) (clock : ℕ) (hheld : s.held = .driving) (hclock : s.clock ≤ clock)
      (hfrom : s.drive.phase ≠ .parked) (hwellFormed : WellFormed d)
      (hkept : Kept s.drive.run d.run) (hphase : d.phase ≠ .parked) :
      Looped e s ev { s with drive := d, clock := clock }
  | park (now : ℕ) (wr : WorkerResult) (hheld : s.held = .driving) (hclock : s.clock ≤ now)
      (hphase : s.drive.phase = .drain wr) (hnone : s.drive.inFlight = 0) :
      Looped e s (.sched now) ({ s with drive := s.drive.park now wr, clock := now }.opened now wr.step)

theorem parking_eq_none_or (s : GateState) :
    s.parking = none ∨ ∃ wr, s.drive.phase = .drain wr ∧ s.drive.inFlight = 0 ∧
      s.parking = some wr.step := by
  rw [parking]
  split
  · rename_i wr hphase
    split
    · exact .inr ⟨wr, hphase, ‹_›, rfl⟩
    · exact .inl rfl
  · exact .inl rfl

/-- What one event of the loop does to a gated run, case by case. -/
theorem loop_cases {e : Engine} {s t : GateState} {ev : Event} (hs : WellFormed s.drive)
    (hstep : s.loop e ev = some t) : Looped e s ev t := by
  cases ev with
  | sched now =>
    obtain ⟨hguard, hstep⟩ := ite_none_right_eq_some.mp hstep
    simp only [Bool.and_eq_true, decide_eq_true_eq] at hguard
    obtain ⟨d, hd, rfl⟩ := map_eq_some_iff.mp hstep
    have hsched := schedStep_cases hd
    rcases parking_eq_none_or s with hnone | ⟨wr, hphase, hflight, hsome⟩
    · rw [hnone]
      rcases hsched.kept_or_parks with ⟨hkept, hphase⟩ | ⟨wr, hphase, hflight, -⟩
      · have hfrom : s.drive.phase ≠ .parked := by
          intro hparked
          simp [schedStep, hparked] at hd
        exact .move _ d now hguard.1 hguard.2 hfrom (hs.scheduled hsched) hkept hphase
      · simp [parking, hphase, hflight] at hnone
    · rw [hsome]
      have hpark : d = s.drive.park now wr := by
        simpa [schedStep, hphase, hflight] using hd.symm
      rw [hpark]
      exact .park now wr hguard.1 hguard.2 hphase hflight
  | worker =>
    obtain ⟨hheld, hstep⟩ := ite_none_right_eq_some.mp hstep
    obtain ⟨d, hd, rfl⟩ := map_eq_some_iff.mp hstep
    obtain ⟨w, hw, hworker⟩ := workerStep_cases hd
    obtain ⟨_, _, _, _, _, rfl⟩ := workerStepped_eq hworker
    have hfrom : s.drive.phase ≠ .parked := by
      intro hparked
      exact hs.no_worker (by simp [hparked, Phase.driving]) hw
    exact .move _ _ s.clock hheld le_rfl hfrom (hs.worked hw hworker) (Kept.refl _) hfrom
  | cancel err =>
    obtain ⟨hguard, hstep⟩ := ite_none_right_eq_some.mp hstep
    simp only [Bool.and_eq_true, decide_eq_true_eq] at hguard
    cases hstep
    have hcancel : step e s.drive (.cancel err) =
        some { s.drive with ctxErr := some err } := by simp [step, hguard.2]
    have hfrom : s.drive.phase ≠ .parked := by
      intro hparked
      simp [hparked, Phase.driving] at hguard
    exact .move _ _ s.clock hguard.1 le_rfl hfrom (hs.step hcancel) (Kept.refl _) hfrom
  | stop | resolve | wake => cases hstep

/-! ## The goroutines -/

/-- Whether a goroutine holds the wait guard of the instance. -/
def Handler.waits : Handler → Bool
  | .waitChecking => true
  | .waking => true
  | .waitDriving => true
  | .waitLeaving => true
  | _ => false

/-- Whether a goroutine is one that answers approvals. -/
def Handler.answers : Handler → Bool
  | .done => false
  | .waitPolled => false
  | .waitChecking => false
  | .waking => false
  | .waitDriving => false
  | .waitLeaving => false
  | _ => true

/-- Moves of an approval goroutine that touch no table and claim no run. -/
inductive Moves (s : GateState) : Handler → Handler → Prop where
  | finish (h : Handler) (hanswers : h.answers = true) : Moves s h .done
  | leave (h : Handler) (hanswers : h.answers = true) : Moves s h .leaving
  | guard (request : String) (response : ApprovalResponse) :
      Moves s (.answered request response) (.advancing (some request) response)
  | look : Moves s .polled .looking
  | adopt (req : ApprovalRequest) (hnewest : s.newest = some req)
      (hclosed : req.status.isOpen = false) :
      Moves s .looking (.advancing (some req.id) (storedResponse req))
  | recheck : Moves s .looking .rechecking
  | evaluate : Moves s .rechecking .evaluating
  | escalate (req : ApprovalRequest) (hnewest : s.newest = some req) :
      Moves s .evaluating (.escalating req.id)
  | expire (req : ApprovalRequest) (hnewest : s.newest = some req) :
      Moves s .evaluating (.expiring req.id)
  | decide (approve : Bool) : Moves s .evaluating (.deciding approve)
  | unrecorded (approve : Bool) (hnewest : s.newest = none) :
      Moves s (.deciding approve) (.advancing none (sourceResponse s.inst approve))
  | resolve (approve : Bool) (req : ApprovalRequest) (hnewest : s.newest = some req) :
      Moves s (.deciding approve) (.resolving req.id approve)

/-- Moves of a wait goroutine, with the wait guard before and after. -/
inductive WaitMoves (s : GateState) : Handler → Handler → Bool → Prop where
  | busy : WaitMoves s .waitPolled .done s.waitAdvancing
  | guard (hfree : s.waitAdvancing = false) : WaitMoves s .waitPolled .waitChecking true
  | terminal (hparked : s.parkedAtWait = true) : WaitMoves s .waitChecking .waking s.waitAdvancing
  | leave (h : Handler) (hwaits : h.waits = true) : WaitMoves s h .waitLeaving s.waitAdvancing
  | release : WaitMoves s .waitLeaving .done false

inductive Acted (e : Engine) (s : GateState) (i : ℕ) (a : Act) : GateState → Prop where
  | moved (h : Handler) (advancing : Bool) (hmoves : Moves s (s.handlers i) h) :
      Acted e s i a ({ s with approvalAdvancing := advancing }.setHandler i h)
  | waitMoved (h : Handler) (advancing : Bool) (hmoves : WaitMoves s (s.handlers i) h advancing) :
      Acted e s i a ({ s with waitAdvancing := advancing }.setHandler i h)
  | responded (request : String) (response : ApprovalResponse)
      (out : Store × Option ApprovalRequest × Bool)
      (hhandler : s.handlers i = .responding request response)
      (hanswered : Answered s.store request response out) :
      Acted e s i a ({ s with store := out.1 }.setHandler i
        (if out.2.2 then .answered request response else .done))
  | escalated (request : String) (hhandler : s.handlers i = .escalating request) :
      Acted e s i a ({ s with store := s.store.escalateApproval request }.setHandler i .evaluating)
  | expired (request : String) (hhandler : s.handlers i = .expiring request) : Acted e s i a
        ({ s with store := s.store.markApprovalTimedOut request }.setHandler i (.deciding false))
  | resolved (request : String) (approve : Bool) (out : Store × Option ApprovalRequest × Bool)
      (hhandler : s.handlers i = .resolving request approve)
      (hanswered : Answered s.store request (sourceResponse s.inst approve) out) :
      Acted e s i a ({ s with store := out.1 }.setHandler i
        (match adoptedResponse (sourceResponse s.inst approve) out.2.1 out.2.2 with
          | none => .leaving
          | some response => .advancing (some request) response))
  | advanced (request : Option String) (response : ApprovalResponse) (d : DriveState)
      (hnext : a = .next) (hhandler : s.handlers i = .advancing request response)
      (hheld : s.held = .parked)
      (hstep : step e s.drive (.resolve (!response.rejects) (approvalMemory response)) = some d) :
      Acted e s i a
        { s with
          drive := d
          held := .driving
          handlers := update s.handlers i .driving
          parkRequest := none
          applied := (request.toList.map fun r => ⟨r, s.parkRequest⟩) ++ s.applied }
  | woken (d : DriveState) (hhandler : s.handlers i = .waking) (hheld : s.held = .parked)
      (hstep : step e s.drive .wake = some d) :
      Acted e s i a
        { s with
          drive := d
          held := .driving
          handlers := update s.handlers i .waitDriving
          parkRequest := none }

section Act

variable {e : Engine} {s t : GateState} {i : ℕ} {a : Act} {h : Handler}

theorem Moves.acted (hmoves : Moves s (s.handlers i) h) : Acted e s i a (s.setHandler i h) :=
  .moved h s.approvalAdvancing hmoves

/-- What an answered run may do next, case by case. -/
theorem advance_cases {request : Option String} {response : ApprovalResponse}
    (hnext : a = .next) (hhandler : s.handlers i = .advancing request response)
    (hstep : s.advance e i request response = some t) : Acted e s i a t := by
  rw [advance] at hstep
  split_ifs at hstep with hheld
  · obtain ⟨d, hd, rfl⟩ := map_eq_some_iff.mp hstep
    exact .advanced request response d hnext hhandler hheld hd
  · exact some.inj hstep ▸ Moves.acted (hhandler ▸ .leave _ rfl)

/-- A timer that wakes dispatches the parked run again, or finds none and leaves. -/
theorem wake_cases (hhandler : s.handlers i = .waking) (hstep : s.wake e i = some t) :
    Acted e s i a t := by
  rw [GateState.wake] at hstep
  split_ifs at hstep with hheld
  · obtain ⟨d, hd, rfl⟩ := map_eq_some_iff.mp hstep
    exact .woken d hhandler hheld hd
  · exact some.inj hstep ▸ .waitMoved .waitLeaving s.waitAdvancing (hhandler ▸ .leave _ rfl)

/-- What one action of a handler does, case by case. -/
theorem act_cases (hstep : s.act e i a = some t) : Acted e s i a t := by
  unfold GateState.act at hstep
  -- one case per line of `act`, in its order
  split at hstep
  · rename_i request response hhandler
    split at hstep
    · exact some.inj hstep ▸ Moves.acted (hhandler ▸ .finish _ rfl)
    · rename_i out hresolve
      exact some.inj hstep ▸
        .responded request response out hhandler (resolveApprovalRequest_cases hresolve)
  · rename_i request response hhandler
    split at hstep <;> rw [some.injEq] at hstep
    · exact hstep ▸ Moves.acted (hhandler ▸ .finish _ rfl)
    · exact hstep ▸ .moved _ true (hhandler ▸ .guard request response)
  · rename_i hhandler
    split at hstep <;> rw [some.injEq] at hstep
    · exact hstep ▸ Moves.acted (hhandler ▸ .finish _ rfl)
    · exact hstep ▸ .moved _ true (hhandler ▸ .look)
  · rename_i hhandler
    split at hstep <;> rw [some.injEq] at hstep
    · exact hstep ▸ Moves.acted (hhandler ▸ .recheck)
    · rename_i req hnewest
      subst hstep
      split_ifs with hstatus
      · refine Moves.acted (hhandler ▸ .adopt req hnewest ?_)
        simp only [Bool.or_eq_true, decide_eq_true_eq] at hstatus
        rcases hstatus with hstatus | hstatus <;> rw [hstatus] <;> rfl
      · exact Moves.acted (hhandler ▸ .recheck)
  · rename_i hhandler
    cases hstep
    split
    · exact Moves.acted (hhandler ▸ .evaluate)
    · exact Moves.acted (hhandler ▸ .leave _ rfl)
  · rename_i hhandler
    obtain ⟨req, hnewest, rfl⟩ := map_eq_some_iff.mp hstep
    exact Moves.acted (hhandler ▸ .escalate req hnewest)
  · rename_i request hhandler
    exact some.inj hstep ▸ .escalated request hhandler
  · rename_i hhandler
    split at hstep <;> rw [some.injEq] at hstep
    · exact hstep ▸ Moves.acted (hhandler ▸ .decide false)
    · rename_i req hnewest
      exact hstep ▸ Moves.acted (hhandler ▸ .expire req hnewest)
  · rename_i request hhandler
    exact some.inj hstep ▸ .expired request hhandler
  · rename_i hhandler
    exact some.inj hstep ▸ Moves.acted (hhandler ▸ .leave _ rfl)
  · rename_i approve hhandler
    exact some.inj hstep ▸ Moves.acted (hhandler ▸ .decide approve)
  · rename_i approve hhandler
    split at hstep <;> rw [some.injEq] at hstep
    · rename_i hnewest
      exact hstep ▸ Moves.acted (hhandler ▸ .unrecorded approve hnewest)
    · rename_i req hnewest
      exact hstep ▸ Moves.acted (hhandler ▸ .resolve approve req hnewest)
  · rename_i request approve hhandler
    split at hstep <;> rw [some.injEq] at hstep
    · exact hstep ▸ Moves.acted (hhandler ▸ .leave _ rfl)
    · rename_i out hresolve
      exact hstep ▸ .resolved request approve out hhandler (resolveApprovalRequest_cases hresolve)
  · rename_i hhandler
    exact advance_cases rfl hhandler hstep
  · rename_i hhandler
    exact some.inj hstep ▸ Moves.acted (hhandler ▸ .leave _ rfl)
  · rename_i hhandler
    exact some.inj hstep ▸ .moved .done false (hhandler ▸ .finish _ rfl)
  · rename_i hhandler
    split at hstep <;> rw [some.injEq] at hstep
    · exact hstep ▸ .waitMoved .done s.waitAdvancing (hhandler ▸ .busy)
    · rename_i hfree
      exact hstep ▸ .waitMoved .waitChecking true (hhandler ▸ .guard (by simpa using hfree))
  · rename_i hhandler
    cases hstep
    split_ifs with hparked
    · rw [Bool.and_eq_true] at hparked
      exact .waitMoved .waking s.waitAdvancing (hhandler ▸ .terminal hparked.1)
    · exact .waitMoved .waitLeaving s.waitAdvancing (hhandler ▸ .leave _ rfl)
  · rename_i hhandler
    exact wake_cases hhandler hstep
  · rename_i hhandler
    exact some.inj hstep ▸ .waitMoved .waitLeaving s.waitAdvancing (hhandler ▸ .leave _ rfl)
  · rename_i hhandler
    exact some.inj hstep ▸ .waitMoved .done false (hhandler ▸ .release)
  · cases hstep

end Act

end Apiary.Approval
