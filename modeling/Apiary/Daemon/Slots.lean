import Apiary.Core.Table
import Apiary.Daemon.Stop

/-!
# The slot of a run

A run holds one slot in its task's outstanding count.  Three paths give it back: the
completion of a run that settled, a stop that took the run out of the engine, and the
re-check that finds the row of a parked run changed.  The engine's maps and the stopped
flag decide, under one mutex, which of them it is.
-/

namespace Apiary.Daemon

open Config Workflow StopState Machine

variable {index : ℕ} {ev : StopEvent} {fallbacks : String → ℕ} {es : List StopEvent}

theorem count_set_add {l : List Stopper} {a : Stopper} (hat : l[index]? = some a) (b c : Stopper) :
    (l.set index b).count c + (if a = c then 1 else 0) = l.count c + if b = c then 1 else 0 := by
  have htoNat (x : Stopper) : (x == c).toNat = if x = c then 1 else 0 := by
    split
    · rename_i hsame
      rw [beq_iff_eq.mpr hsame]
      rfl
    · rename_i hother
      rw [beq_eq_false_iff_ne.mpr hother]
      rfl
  have hcount := Table.countP_set hat (fun x => x == c) b
  rw [htoNat, htoNat] at hcount
  exact hcount

/-- Who holds the run, and what became of its slot. -/
structure SlotOk (s : StopState) : Prop where
  wellFormed : WellFormed s.drive
  settling : s.hold ≠ .gone → s.settling = .idle
  stopped : s.drive.run.stopped = true → s.live = false
  flagged : s.hold = .flagged → s.drive.run.stopped = true
  kept : s.live = true → s.released + s.releasing = 0
  given : s.live = false → s.released + s.releasing = 1

section Live

variable {s : StopState}

theorem live_of_parked (hhold : s.hold = .parked) : s.live = true := by
  simp [live, hhold]

theorem live_of_resuming (hhold : s.hold = .resuming) : s.live = true := by
  simp [live, hhold]

theorem hold_of_not_live (hdead : s.live = false) :
    s.hold = .flagged ∨ s.hold = .gone ∧ s.settling = .idle := by
  rw [live] at hdead
  split at hdead
  · exact .inl ‹_›
  · exact .inr ⟨‹_›, by simpa using hdead⟩
  · cases hdead

theorem live_of_driven_unflagged (hdriven : s.hold.driven = true) (hflagged : s.hold ≠ .flagged) :
    s.live = true := by
  by_contra hdead
  rcases hold_of_not_live (Bool.eq_false_iff.mpr hdead) with h | ⟨hgone, -⟩
  · exact hflagged h
  · simp [hgone, Hold.driven] at hdriven

/-- A run that is being driven and was not stopped is live. -/
theorem SlotOk.live_of_driven (hs : SlotOk s) (hdriven : s.hold.driven = true)
    (hstopped : s.drive.run.stopped = false) : s.live = true := by
  apply live_of_driven_unflagged hdriven
  intro hflagged
  exact absurd (hs.flagged hflagged) (by simp [hstopped])

theorem SlotOk.gone_of_settling (hs : SlotOk s) (hsettling : s.settling ≠ .idle) :
    s.hold = .gone := by
  by_contra hhold
  exact hsettling (hs.settling hhold)

theorem SlotOk.live_of_settling (hs : SlotOk s) (hsettling : s.settling ≠ .idle) :
    s.live = true := by
  simp [live, hs.gone_of_settling hsettling, hsettling]

end Live

section Steps

variable {e : Engine} {s t : StopState}

theorem drives_ne_stop {ev : Event} (hdrives : drives ev = true) : ev ≠ .stop := by
  rintro rfl
  cases hdrives

theorem leavesPark_ne_stop {ev : Event} (hleaves : leavesPark ev = true) : ev ≠ .stop := by
  rintro rfl
  cases hleaves

variable (hs : SlotOk s)

include hs

theorem SlotOk.not_stopped (hlive : s.live = true) : s.drive.run.stopped = false := by
  by_contra hstopped
  exact absurd (hs.stopped (by simpa using hstopped)) (by simp [hlive])

omit hs in
/-- The stop that took the run holds its slot. -/
theorem releasing_taken (hat : s.stoppers[index]? = some .forgetting)
    (hslot : s.released + s.releasing = 0) :
    s.released + (s.stoppers.set index .releasing).count .releasing = 1 := by
  have hcount := count_set_add hat .releasing .releasing
  simp only [ite_true, reduceCtorEq, ite_false] at hcount
  simp only [releasing] at hslot
  omega

omit hs in
theorem SlotOk.of_live (hwell : WellFormed t.drive) (hsettling : t.hold ≠ .gone → t.settling = .idle)
    (hstopped : t.drive.run.stopped = false) (hhold : t.hold ≠ .flagged) (hlive : t.live = true)
    (hslot : t.released + t.releasing = 0) : SlotOk t where
  wellFormed := hwell
  settling := hsettling
  stopped h := nomatch h.symm.trans hstopped
  flagged h := absurd h hhold
  kept _ := hslot
  given h := nomatch h.symm.trans hlive

omit hs in
/-- A state in which the engine has let go of the run. -/
theorem SlotOk.of_not_live (hwell : WellFormed t.drive)
    (hsettling : t.hold ≠ .gone → t.settling = .idle)
    (hflagged : t.hold = .flagged → t.drive.run.stopped = true) (hdead : t.live = false)
    (hslot : t.released + t.releasing = 1) : SlotOk t where
  wellFormed := hwell
  settling := hsettling
  stopped _ := hdead
  flagged := hflagged
  kept h := nomatch h.symm.trans hdead
  given _ := hslot

theorem SlotOk.same (hwell : WellFormed t.drive)
    (hstopped : t.drive.run.stopped = s.drive.run.stopped) (hhold : t.hold = s.hold)
    (hsettling : t.settling = s.settling)
    (hslot : t.released + t.releasing = s.released + s.releasing) : SlotOk t := by
  have hlive : t.live = s.live := by simp only [live, hhold, hsettling]
  exact ⟨hwell, hhold ▸ hsettling ▸ hs.settling, hlive ▸ hstopped ▸ hs.stopped,
    hhold ▸ hstopped ▸ hs.flagged, hlive ▸ hslot ▸ hs.kept, hlive ▸ hslot ▸ hs.given⟩

theorem SlotOk.dropped (hhold : s.hold = .parked) : SlotOk s.drop := by
  have hslot := hs.kept (live_of_parked hhold)
  have hsettling := hs.settling (by simp [hhold])
  refine .of_not_live hs.wellFormed (fun h => absurd rfl h) nofun ?_ ?_
  · simp [live, StopState.drop, hsettling]
  · change s.released + 1 + s.releasing = 1
    omega

theorem SlotOk.moved {a b : Stopper} (hat : s.stoppers[index]? = some a) (ha : a ≠ .releasing)
    (hb : b ≠ .releasing) (hstoppers : t.stoppers = s.stoppers.set index b)
    (hdrive : t.drive = s.drive) (hhold : t.hold = s.hold) (hsettling : t.settling = s.settling)
    (hreleased : t.released = s.released) : SlotOk t := by
  have hcount := count_set_add hat b .releasing
  refine hs.same (hdrive ▸ hs.wellFormed) (by rw [hdrive]) hhold hsettling ?_
  simp only [releasing, hstoppers, hreleased]
  simp only [ha, hb, ite_false] at hcount
  omega

theorem SlotOk.step (hstep : StopStepped e s ev t) : SlotOk t := by
  cases hstep with
  | looped ev d registered hdriven hdrives hstep =>
    exact hs.same (hs.wellFormed.step hstep) (step_stopped (drives_ne_stop hdrives) hstep) rfl rfl rfl
  | failedOver => exact hs.same hs.wellFormed rfl rfl rfl rfl
  | wrote failed hsettling =>
    have hne : s.settling ≠ .idle := by simp [hsettling]
    have hgone := hs.gone_of_settling hne
    have hlive := hs.live_of_settling hne
    refine .of_live hs.wellFormed (fun h => absurd hgone h) (hs.not_stopped hlive) ?_ ?_
      (hs.kept hlive)
    · simp [hgone]
    · simp [live, hgone]
  | completed hsettling =>
    have hne : s.settling ≠ .idle := by simp [hsettling]
    have hgone := hs.gone_of_settling hne
    have hslot := hs.kept (hs.live_of_settling hne)
    refine .of_not_live hs.wellFormed (fun _ => rfl) ?_ ?_ ?_
    · simp [hgone]
    · simp [live, hgone]
    · change s.released + 1 + s.releasing = 1
      omega
  | abandoned hsettling hdriven hstopped =>
    refine .of_not_live hs.wellFormed (fun h => absurd rfl h) nofun ?_
      (hs.given (hs.stopped hstopped))
    simp [live, hsettling]
  | parks reason hreason hsettling hdriven hstopped =>
    exact .of_live hs.wellFormed (fun _ => hsettling) hstopped nofun rfl
      (hs.kept (hs.live_of_driven hdriven hstopped))
  | closes failed hsettling hdriven hstopped =>
    exact .of_live hs.wellFormed (fun h => absurd rfl h) hstopped nofun rfl
      (hs.kept (hs.live_of_driven hdriven hstopped))
  | claimed ev d hleaves hhold hrow hstep =>
    have hlive := live_of_parked hhold
    have hstopped := (step_stopped (leavesPark_ne_stop hleaves) hstep).trans (hs.not_stopped hlive)
    exact .of_live (hs.wellFormed.step hstep) (fun _ => hs.settling (by simp [hhold])) hstopped
      nofun rfl (hs.kept hlive)
  | refused ev hhold | dropped hhold => exact hs.dropped hhold
  | rechecked => exact hs
  | requested =>
    refine hs.same hs.wellFormed rfl rfl rfl ?_
    simp [releasing]
  | canceled index hat | marked index hat | missed index hat =>
    exact hs.moved hat (by decide) (by decide) rfl rfl rfl rfl rfl
  | tookParked index hat hhold =>
    have hslot := hs.kept (live_of_parked hhold)
    have hsettling := hs.settling (by simp [hhold])
    refine .of_not_live hs.wellFormed (fun h => absurd rfl h) nofun ?_ ?_
    · simp [live, hsettling]
    · exact releasing_taken hat hslot
  | tookResuming index hat hhold =>
    have hslot := hs.kept (live_of_resuming hhold)
    have hsettling := hs.settling (by simp [hhold])
    exact .of_not_live hs.wellFormed.flagged (fun _ => hsettling) (fun _ => rfl) rfl
      (releasing_taken hat hslot)
  | gaveBack index hat =>
    refine hs.same hs.wellFormed rfl rfl rfl ?_
    have hcount := count_set_add hat .marking .releasing
    simp only [ite_true, reduceCtorEq, ite_false] at hcount
    simp only [releasing]
    omega

omit hs in
theorem Launched.slotOk (hstart : Launched s) : SlotOk s := by
  cases hstart with
  | driven d hinit | parked d reason hinit =>
    exact .of_live hinit.started.wellFormed (fun _ => rfl) hinit.not_stopped nofun rfl rfl

theorem SlotOk.run (hrun : exec (stopStep e fallbacks) s es = some t) : SlotOk t :=
  exec_invariant_of_step (fun _ _ _ hs hstep => hs.step (stopStep_cases hstep)) hs hrun

end Steps

/-! ## After the engine has let go -/

section LetGo

variable {e : Engine}

theorem stopped_picks_nothing {s t : DriveState} {ev : Event} (hdrives : drives ev = true)
    (hstopped : s.run.stopped = true) (hstep : step e s ev = some t) {ids : List String}
    (hpicked : t.phase = .dispatch ids) : ∃ before, s.phase = .dispatch (before ++ ids) := by
  cases step_cases hstep with
  | sched now t hsched =>
    cases hsched with
    | hold | picked | await | park => cases hpicked
    | pick hphase hrunning => simp [hstopped] at hrunning
    | dispatch id rest hphase =>
      refine ⟨[id], hphase.trans ?_⟩
      dsimp only at hpicked
      split_ifs at hpicked
      rw [Phase.dispatch.injEq] at hpicked
      rw [hpicked, List.singleton_append]
    | quiesce hphase hnone t hquiesced => cases hquiesced <;> cases hpicked
    | receive wr rest hphase hresult t hreceived =>
      cases hreceived with
      | dropped | parking => cases hpicked
      | applied hrunning => nomatch hstopped.symm.trans hrunning
    | discard wr dropped rest hphase => nomatch hphase.symm.trans hpicked
  | worker index act w hw t hworker =>
    cases workerStepped_moved hworker <;> exact ⟨[], hpicked⟩
  | cancel => exact ⟨[], hpicked⟩
  | stop | resolve | wake => cases hdrives

/-- What a step can do to a run that the engine has let go: no wake and no decision finds
it, only a stop writes its row, settling it starts nothing, and the loop that may still be
under way picks nothing. -/
structure Inert (s : StopState) (ev : StopEvent) (t : StopState) : Prop where
  notLive : t.live = false
  unclaimed : ∀ act, ev ≠ .claim act
  row : (∀ index, ev ≠ .stop index) → t.row = s.row
  settled : ev = .settle → t.drive = s.drive ∧ t.starts = s.starts
  picked : ∀ ids, t.drive.phase = .dispatch ids → ∃ before, s.drive.phase = .dispatch (before ++ ids)

variable {s t : StopState}

theorem SlotOk.inert (hs : SlotOk s) (hdead : s.live = false) (hstep : StopStepped e s ev t) :
    Inert s ev t := by
  have hparked : s.hold ≠ .parked := fun h => by simp [live_of_parked h] at hdead
  have hresuming : s.hold ≠ .resuming := fun h => by simp [live_of_resuming h] at hdead
  have hidle : s.settling = .idle := by
    by_contra hne
    simp [hs.live_of_settling hne] at hdead
  cases hstep with
  | looped ev d registered hdriven hdrives hstep =>
    have hstopped : s.drive.run.stopped = true := by
      by_contra hrunning
      simp [hs.live_of_driven hdriven (by simpa using hrunning)] at hdead
    exact ⟨hdead, nofun, fun _ => rfl, nofun,
      fun ids hids => stopped_picks_nothing hdrives hstopped hstep hids⟩
  | failedOver => exact ⟨hdead, nofun, fun _ => rfl, nofun, fun ids hids => ⟨[], hids⟩⟩
  | wrote failed hsettling | completed hsettling => simp [hidle] at hsettling
  | abandoned hsettling =>
    refine ⟨?_, nofun, fun _ => rfl, fun _ => ⟨rfl, rfl⟩, fun ids hids => ⟨[], hids⟩⟩
    simp [live, hsettling]
  | parks reason hreason hsettling hdriven hstopped | closes failed hsettling hdriven hstopped =>
    simp [hs.live_of_driven hdriven hstopped] at hdead
  | claimed ev d hleaves hhold | refused ev hhold | dropped hhold | rechecked hhold
  | tookParked index hat hhold => exact absurd hhold hparked
  | tookResuming index hat hhold => exact absurd hhold hresuming
  | requested => exact ⟨hdead, nofun, fun _ => rfl, nofun, fun ids hids => ⟨[], hids⟩⟩
  | canceled index | missed index | gaveBack index | marked index =>
    exact ⟨hdead, nofun, fun h => absurd rfl (h index), nofun, fun ids hids => ⟨[], hids⟩⟩

/-- `StopParked` reports that it held the run exactly when it takes it out. -/
theorem stopParked_not_live (hs : SlotOk s) (hheld : s.stopParked.2 = true) :
    s.stopParked.1.live = false := by
  by_cases hparked : s.hold = .parked
  · simp [stopParked, live, hparked, hs.settling]
  by_cases hresuming : s.hold = .resuming
  · simp [stopParked, live, hresuming]
  · simp [stopParked_of_not_held hparked hresuming] at hheld

theorem SlotOk.inert_run {u : StopState} (hs : SlotOk s) (hdead : s.live = false)
    (hrun : exec (stopStep e fallbacks) s es = some t)
    (hstep : stopStep e fallbacks t ev = some u) : Inert t ev u := by
  have hkept : ∀ s ev s', SlotOk s ∧ s.live = false → stopStep e fallbacks s ev = some s' →
      SlotOk s' ∧ s'.live = false := by
    intro s ev s' hs hstep
    have hcases := stopStep_cases hstep
    exact ⟨hs.1.step hcases, (hs.1.inert hs.2 hcases).notLive⟩
  have hinv := exec_invariant_of_step hkept ⟨hs, hdead⟩ hrun
  exact hinv.1.inert hinv.2 (stopStep_cases hstep)

/-- In every interleaving the slot is given back at most once, and exactly once when the
run has left the engine and nobody is about to give it back.  From a `StopParked` on that
reported holding the run, every step leaves the run alone. -/
theorem slot_released_once (e : Engine) (fallbacks : String → ℕ) (hstart : Launched s)
    {es : List StopEvent} (hrun : exec (stopStep e fallbacks) s es = some t) :
    t.released ≤ 1 ∧ (t.hold = .flagged ∨ t.hold = .gone → t.settling = .idle → t.releasing = 0 →
        t.released = 1) ∧
      ∀ index u, t.stoppers[index]? = some .forgetting → t.stopParked.2 = true →
        stopStep e fallbacks t (.stop index) = some u →
        ∀ later v ev w, exec (stopStep e fallbacks) u later = some v →
          stopStep e fallbacks v ev = some w → Inert v ev w := by
  have hok := hstart.slotOk.run hrun
  refine ⟨?_, ?_, ?_⟩
  · cases hlive : t.live with
    | true =>
      have hslot := hok.kept hlive
      omega
    | false =>
      have hslot := hok.given hlive
      omega
  · intro hhold hsettling hreleasing
    have hdead : t.live = false := by
      rcases hhold with hhold | hhold <;> simp [live, hhold, hsettling]
    have hslot := hok.given hdead
    omega
  · intro index u hat hheld hstop later v ev w hlater hstep
    have hu : SlotOk u := hok.step (stopStep_cases hstop)
    have hdead := stopParked_not_live hok hheld
    simp only [stopStep, StopState.stop, hat, Option.some.injEq] at hstop
    exact hu.inert_run (hstop ▸ hdead) hlater hstep

end LetGo

/-- The gate is approved, and a stop asks for the run before the loop has looked. -/
def patchResumes : List StopEvent := patchParks ++ [.claim (.resolve true {}), .request, .stop 0]

/-- A stop that finds the patch being resumed takes it out for good. -/
theorem patch_resumed_slot_released_once :
    ∃ t u, exec (stopStep (plainEngine 2) fun _ => 1) patchStart patchResumes = some t ∧
      t.hold = .resuming ∧ t.released ≤ 1 ∧
      stopStep (plainEngine 2) (fun _ => 1) t (.stop 0) = some u ∧ u.hold = .flagged ∧
      ∀ later v ev w, exec (stopStep (plainEngine 2) fun _ => 1) u later = some v →
        stopStep (plainEngine 2) (fun _ => 1) v ev = some w → Inert v ev w := by
  have hrun := exec_get (by decide :
    (exec (stopStep (plainEngine 2) fun _ => 1) patchStart patchResumes).isSome = true)
  obtain ⟨hreleased, -, hinert⟩ :=
    slot_released_once (plainEngine 2) (fun _ => 1) patchStart_launched hrun
  refine ⟨_, _, hrun, by decide, hreleased, (Option.some_get (by decide)).symm, by decide, ?_⟩
  exact hinert 0 _ (by decide) (by decide) (Option.some_get _).symm

end Apiary.Daemon
