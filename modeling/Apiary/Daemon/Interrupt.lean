import Apiary.Daemon.Slots

/-!
# What a stop promises

Once a stop has returned, nothing of the instance is to start again, its row is to say
`interrupted`, and its slot is to be back.  The engine keeps this for a run that it holds
and that has nothing under way: a parked run, and one that is being resumed while its
loop has no step in flight and none picked.  A run on its first drive is not held, so its
loop, its fallback runners and its `settle` go on after the stop.
-/

namespace Apiary.Daemon

open Config Workflow List Option Machine StopState

variable {d : DriveState}

/-! ## What a stop promises -/

/-- Once a stop has returned, nothing has started since, the row says so, and the slot
has been given back once (or the stop that holds it is about to). -/
def StopState.StaysStopped (s : StopState) : Prop :=
  ∀ starts, s.returned = some starts →
    s.starts = starts ∧ s.row = .blocked .interrupted ∧ s.released + s.releasing = 1

/-- Nothing is in flight, and no step that was picked is left to be launched. -/
def quiet (s : DriveState) : Bool :=
  s.inFlight = 0 && match s.phase with
    | .dispatch (_ :: _) => false
    | _ => true

/-- The engine holds the run and nothing of it is under way, or it is over. -/
def StopState.atRest (s : StopState) : Bool :=
  match s.hold with
  | .firstDrive => false
  | .parked => true
  | .resuming => quiet s.drive
  | .flagged => true
  | .gone => s.settling = .idle

/-- Every stop looks for the run while it is at rest. -/
def stopsAtRest (s : StopState) : StopEvent → Bool
  | .stop index => s.stoppers[index]? ≠ some .forgetting || s.atRest
  | _ => true

/-! ## A stopped loop -/

section Quiet

variable {e : Engine} {s t : DriveState}

theorem quiet_iff : quiet s = true ↔
    s.inFlight = 0 ∧ ∀ id ids, s.phase ≠ .dispatch (id :: ids) := by
  rw [quiet, Bool.and_eq_true, decide_eq_true_eq]
  refine and_congr_right fun _ => ?_
  split
  · rename_i hphase
    simp [hphase]
  · rename_i hphase
    simpa using hphase

/-- A stopped loop with nothing in flight runs to its end and starts nothing. -/
theorem quiet_step (hs : WellFormed s) (hquiet : quiet s = true) (hstopped : s.run.stopped = true)
    {ev : Event} (hdrives : drives ev = true) (hstep : step e s ev = some t) :
    quiet t = true ∧ t.run.stopped = true ∧ t.history = s.history := by
  obtain ⟨hnone, hidle⟩ := quiet_iff.mp hquiet
  have hempty := append_eq_nil_iff.mp (hs.inFlightIDs_eq_nil hnone)
  have hworkers : s.workers = [] := map_eq_nil_iff.mp hempty.1
  have hresults : s.resultCh = [] := map_eq_nil_iff.mp hempty.2
  cases step_cases hstep with
  | sched now t hsched =>
    cases hsched with
    | hold | picked | await => exact ⟨quiet_iff.mpr ⟨hnone, by simp⟩, hstopped, rfl⟩
    | pick hphase hrunning => simp [hstopped] at hrunning
    | dispatch id ids hphase => exact absurd hphase (hidle id ids)
    | quiesce hphase hnone t hquiesced =>
      cases hquiesced with
      | stopped hstopped => exact ⟨quiet_iff.mpr ⟨hnone, by simp⟩, hstopped, rfl⟩
      | failed hrunning | reset hrunning | skipped hrunning | again hrunning | ended hrunning =>
        simp [hstopped] at hrunning
    | receive wr rest hphase hresult | discard wr dropped rest hphase hsome hresult =>
      simp [hresults] at hresult
    | park wr hphase hnone =>
      obtain ⟨_, _, _, hpark⟩ := enterPark_eq s.run now wr
      rw [DriveState.park, hpark]
      exact ⟨quiet_iff.mpr ⟨hnone, by simp⟩, hstopped, rfl⟩
  | worker index act w hw => simp [hworkers] at hw
  | cancel => exact ⟨hquiet, hstopped, rfl⟩
  | stop | resolve | wake => cases hdrives

end Quiet

/-! ## The promise is kept -/

/-- What holds while every stop looks for the run at rest. -/
structure StopOk (s : StopState) : Prop where
  slots : SlotOk s
  row : s.hold = .parked → s.row.isParked = true
  unreturned : s.live = true → s.returned = none
  looking : s.live = true → ∀ p ∈ s.stoppers, p = .canceling ∨ p = .forgetting
  flagged : s.hold = .flagged → quiet s.drive = true
  marked : ∀ starts, s.returned = some starts → s.starts = starts ∧ s.row = .blocked .interrupted

section Steps

variable {e : Engine} {s t : StopState}

theorem StopOk.staysStopped (hs : StopOk s) : s.StaysStopped := by
  intro starts hreturned
  have hdead : s.live = false := by
    by_contra hlive
    exact absurd (hs.unreturned (by simpa using hlive)) (by simp [hreturned])
  obtain ⟨hstarts, hrow⟩ := hs.marked starts hreturned
  exact ⟨hstarts, hrow, hs.slots.given hdead⟩

/-- While the run is live no stop has returned, so nothing is promised yet. -/
theorem StopOk.of_live (hslots : SlotOk t) (hrow : t.hold = .parked → t.row.isParked = true)
    (hreturned : t.returned = none)
    (hlooking : ∀ p ∈ t.stoppers, p = .canceling ∨ p = .forgetting) (hhold : t.hold ≠ .flagged) :
    StopOk t where
  slots := hslots
  row := hrow
  unreturned _ := hreturned
  looking _ := hlooking
  flagged h := absurd h hhold
  marked _ h := nomatch h.symm.trans hreturned

theorem StopOk.of_not_live (hslots : SlotOk t) (hdead : t.live = false)
    (hquiet : t.hold = .flagged → quiet t.drive = true)
    (hmarked : ∀ starts, t.returned = some starts →
      t.starts = starts ∧ t.row = .blocked .interrupted) : StopOk t where
  slots := hslots
  row h := absurd (live_of_parked h) (by simp [hdead])
  unreturned h := nomatch h.symm.trans hdead
  looking h := nomatch h.symm.trans hdead
  flagged := hquiet
  marked := hmarked

theorem StopOk.not_live_of_stopper (hs : StopOk s) {index : ℕ} {p : Stopper}
    (hat : s.stoppers[index]? = some p) (hcanceling : p ≠ .canceling)
    (hforgetting : p ≠ .forgetting) : s.live = false := by
  by_contra hlive
  rcases hs.looking (by simpa using hlive) p (mem_of_getElem? hat) with h | h
  · exact hcanceling h
  · exact hforgetting h

theorem StopOk.looped (hs : StopOk s) {ev : Event} (registered : Option ℕ)
    (hdriven : s.hold.driven = true) (hdrives : drives ev = true)
    (hstep : step e s.drive ev = some d) :
    StopOk { s with drive := d, registered := registered } := by
  have hslots : SlotOk { s with drive := d, registered := registered } :=
    hs.slots.step (.looped ev d registered hdriven hdrives hstep)
  by_cases hflagged : s.hold = .flagged
  · obtain ⟨hquiet, -, hhistory⟩ := quiet_step hs.slots.wellFormed (hs.flagged hflagged)
      (hs.slots.flagged hflagged) hdrives hstep
    refine .of_not_live hslots ?_ (fun _ => hquiet) ?_
    · simp [live, hflagged]
    · simpa [starts, hhistory] using hs.marked
  · have hlive := live_of_driven_unflagged hdriven hflagged
    exact .of_live hslots hs.row (hs.unreturned hlive) (hs.looking hlive) hflagged

theorem unitAt_of_quiet (hd : WellFormed d) (hquiet : quiet d = true) (index unit : ℕ) :
    unitAt d index unit = none := by
  have hempty := append_eq_nil_iff.mp (hd.inFlightIDs_eq_nil (quiet_iff.mp hquiet).1)
  have hworkers : d.workers = [] := map_eq_nil_iff.mp hempty.1
  simp [unitAt, hworkers]

theorem not_live_of_atRest (hrest : s.atRest = true) (hparked : s.hold ≠ .parked)
    (hresuming : s.hold ≠ .resuming) : s.live = false := by
  cases hhold : s.hold with
  | firstDrive => simp [atRest, hhold] at hrest
  | parked => exact absurd hhold hparked
  | resuming => exact absurd hhold hresuming
  | flagged => simp [live, hhold]
  | gone =>
    have hsettling : s.settling = .idle := by simpa [atRest, hhold] using hrest
    simp [live, hhold, hsettling]

theorem StopOk.step {ev : StopEvent} (hs : StopOk s) (hguard : stopsAtRest s ev = true)
    (hstep : StopStepped e s ev t) : StopOk t := by
  have hslots := hs.slots.step hstep
  cases hstep with
  | looped ev d registered hdriven hdrives hstep => exact hs.looped registered hdriven hdrives hstep
  | failedOver index unit n u hdriven hunit =>
    -- a flagged run has no step in flight whose runner could fail over
    have hflagged : s.hold ≠ .flagged := by
      intro h
      rw [unitAt_of_quiet hs.slots.wellFormed (hs.flagged h)] at hunit
      cases hunit
    have hlive := live_of_driven_unflagged hdriven hflagged
    exact .of_live hslots hs.row (hs.unreturned hlive) (hs.looking hlive) hflagged
  | wrote failed hsettling =>
    have hne : s.settling ≠ .idle := by simp [hsettling]
    have hgone := hs.slots.gone_of_settling hne
    have hlive := hs.slots.live_of_settling hne
    exact .of_live hslots (by simp [hgone]) (hs.unreturned hlive) (hs.looking hlive)
      (by simp [hgone])
  | completed hsettling =>
    have hne : s.settling ≠ .idle := by simp [hsettling]
    have hgone := hs.slots.gone_of_settling hne
    have hnone := hs.unreturned (hs.slots.live_of_settling hne)
    exact .of_not_live hslots (by simp [live, hgone]) (by simp [hgone])
      (by simp [hnone])
  | abandoned hsettling =>
    exact .of_not_live hslots (by simp [live, hsettling]) (by simp) hs.marked
  | parks reason hreason hsettling hdriven hstopped =>
    have hlive := hs.slots.live_of_driven hdriven hstopped
    exact .of_live hslots (fun _ => by simp [InstanceState.isParked, hreason])
      (hs.unreturned hlive) (hs.looking hlive) (by simp)
  | closes failed hsettling hdriven hstopped =>
    have hlive := hs.slots.live_of_driven hdriven hstopped
    exact .of_live hslots (by simp) (hs.unreturned hlive) (hs.looking hlive) (by simp)
  | claimed ev d hleaves hhold =>
    have hlive := live_of_parked hhold
    exact .of_live hslots (by simp) (hs.unreturned hlive) (hs.looking hlive) (by simp)
  | refused ev hhold hrow | dropped hhold hrow => exact absurd (hs.row hhold) (by simp [hrow])
  | rechecked => exact hs
  | requested =>
    refine ⟨hslots, hs.row, hs.unreturned, ?_, hs.flagged, hs.marked⟩
    intro hlive p hp
    rw [mem_append, mem_singleton] at hp
    exact hp.elim (hs.looking hlive p) .inl
  | canceled =>
    refine ⟨hslots, hs.row, hs.unreturned, ?_, hs.flagged, hs.marked⟩
    intro hlive p hp
    exact (mem_or_eq_of_mem_set hp).elim (hs.looking hlive p) .inr
  | tookParked index hat hhold =>
    have hnone := hs.unreturned (live_of_parked hhold)
    have hsettling := hs.slots.settling (by simp [hhold])
    exact .of_not_live hslots (by simp [live, hsettling]) (by simp) (by simp [hnone])
  | tookResuming index hat hhold =>
    have hnone := hs.unreturned (live_of_resuming hhold)
    have hquiet : quiet s.drive = true := by
      simpa [stopsAtRest, hat, atRest, hhold] using hguard
    exact .of_not_live hslots rfl (fun _ => hquiet) (by simp [hnone])
  | missed index hat hparked hresuming =>
    have hrest : s.atRest = true := by simpa [stopsAtRest, hat] using hguard
    exact .of_not_live hslots (not_live_of_atRest hrest hparked hresuming) hs.flagged hs.marked
  | gaveBack index hat =>
    have hdead := hs.not_live_of_stopper hat (by decide) (by decide)
    exact .of_not_live hslots hdead hs.flagged hs.marked
  | marked index hat =>
    have hdead := hs.not_live_of_stopper hat (by decide) (by decide)
    refine .of_not_live hslots hdead hs.flagged ?_
    intro starts hreturned
    refine ⟨?_, rfl⟩
    cases hfirst : s.returned with
    | none =>
      rw [hfirst, none_or, some.injEq] at hreturned
      exact hreturned
    | some first =>
      rw [hfirst, some_or, some.injEq] at hreturned
      exact (hs.marked first hfirst).1.trans hreturned

theorem Launched.stopOk (hstart : Launched s) : StopOk s := by
  cases hstart with
  | driven d hinit htop =>
    exact .of_live (Launched.driven d hinit htop).slotOk nofun rfl nofun nofun
  | parked d reason hinit hphase hreason =>
    exact .of_live (Launched.parked d reason hinit hphase hreason).slotOk
      (fun _ => by simp [InstanceState.isParked, hreason]) rfl nofun nofun

end Steps

/-- In every run in which each stop looks for the instance while it is at rest, a stop that
has returned is final: nothing starts after it, the row stays interrupted, and the slot is
given back once. -/
theorem stops_at_rest_stay_stopped (e : Engine) (fallbacks : String → ℕ) {s t : StopState}
    {es : List StopEvent} (hstart : Launched s)
    (hguarded : Machine.Guarded (stopStep e fallbacks) (fun s ev => stopsAtRest s ev = true) s es)
    (hrun : exec (stopStep e fallbacks) s es = some t) : t.StaysStopped := by
  have hkept : ∀ s ev s', StopOk s → stopsAtRest s ev = true → stopStep e fallbacks s ev = some s' →
      StopOk s' := fun s ev s' hs hguard hstep => hs.step hguard (stopStep_cases hstep)
  exact (exec_invariant hkept hstart.stopOk hguarded hrun).staysStopped

/-- A stop runs from its request to its return. -/
def stopReturns : List StopEvent := .request :: List.replicate 3 (.stop 0)

/-- The patch is stopped at its gate, where the engine holds it: one step more than on a
first drive, to give the slot back.  A second stop is under way. -/
def patchStoppedAtGate : List StopEvent := patchParks ++ stopReturns ++ [.stop 0, .request, .stop 1]

theorem patch_stoppedAtGate_staysStopped :
    ∃ t, exec (stopStep (plainEngine 2) fun _ => 1) patchStart patchStoppedAtGate = some t ∧
      t.returned = some 3 ∧ t.released = 1 ∧ t.StaysStopped := by
  refine ⟨_, exec_get (by decide), by decide, by decide, ?_⟩
  exact stops_at_rest_stay_stopped (plainEngine 2) (fun _ => 1) patchStart_launched (by decide)
    (exec_get _)

/-- The patch is stopped while its first step runs: the stop returns, a fallback runner is
started, and the run goes on to its end. -/
def patchStoppedOnFirstDrive : List StopEvent :=
  (List.replicate 4 (Event.sched 0) ++ [Event.worker 0 (.start 0)]).map .loop ++ stopReturns ++
    [.failover 0 0] ++
    (Event.worker 0 (.finish 0 { output := "aborted" }) :: Event.worker 0 .deliver ::
      List.replicate 3 (Event.sched 0)).map .loop ++ [.settle, .settle]

theorem patch_stoppedOnFirstDrive_goes_on :
    ∃ t, exec (stopStep (plainEngine 2) fun _ => 1) patchStart patchStoppedOnFirstDrive =
        some t ∧ t.canceled = [0] ∧ t.returned = some 2 ∧ t.starts = 3 ∧ t.row = .failed ∧
      ¬ t.StaysStopped := by
  refine ⟨_, exec_get (by decide), by decide, by decide, by decide, by decide, fun hstays => ?_⟩
  exact absurd (hstays 2 (by decide)).1 (by decide)

end Apiary.Daemon
