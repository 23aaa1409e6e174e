import Apiary.Core.Table
import Apiary.Daemon.Rounds

/-!
# One completion hook for each round

The counter is right as long as slots are given back by settles, and by others only
while a settle is still to come; and a restart keeps it right when every workflow that
is not settled has a row that survives.
-/

namespace Apiary.Daemon

open List Option Machine FlightStage Account Bool

variable {stage : FlightStage} {state : TaskState} {n : ℕ}

/-- No dispatch comes between the last decrement of a round and its hook; a rolled back
dispatch or a stop never gives the last slot back; no job ends without a run, nor is one
canceled or its lease lost before its run has parked or settled; and the daemon is restarted
only while every workflow of the task is parked or over, and no stop has left a row behind
while the task waits for a retry. -/
def inOrder (s : Account) : RoundEvent → Bool
  | .dispatch _ => s.flights.all fun f => f.stage ≠ .last && f.stage ≠ .hooking
  | .enqueue _ false =>
    1 < s.outstanding || s.flights.all fun f => f.round ≠ s.generation || !f.stage.dispatched
  | .stop _ => 1 < s.outstanding
  | .skip _ => false
  | .abort _ => false
  | .redeliver _ => false
  | .restart =>
    (s.flights.all fun f => f.stage = .parked || f.stage = .rolledBack || f.stage = .settled ||
      f.stage = .stopped) &&
    (s.state ≠ .blocked .retryBackoff || s.flights.all fun f => f.stage ≠ .stopped)
  | _ => true

/-! ## Counting -/

/-- The workflow holds a slot. -/
def FlightStage.holds : FlightStage → Bool
  | .counted => true
  | .waiting => true
  | .running => true
  | .parked => true
  | .closing => true
  | _ => false

/-- The workflow is about to end its round. -/
def FlightStage.concludes : FlightStage → Bool
  | .last => true
  | .hooking => true
  | _ => false

/-- The stages that an undisturbed round goes through. -/
def FlightStage.regular : FlightStage → Bool
  | .dropped => false
  | .abandoned => false
  | .interrupted => false
  | .lost => false
  | _ => true

theorem FlightStage.isOpen_iff (hregular : stage.regular = true) :
    stage.isOpen = true ↔ stage.holds = true ∨ stage.concludes = true := by
  cases stage <;> simp_all [isOpen, holds, concludes, regular]

def Account.concluding (s : Account) : ℕ := s.flights.countP fun f => f.stage.concludes

/-- The counter is the number of slots held, all of them by workflows of the current round;
earlier rounds have had their hook, and the current one gets it before the next begins. -/
structure RoundOk (s : Account) : Prop where
  counted : s.outstanding = s.flights.countP fun f => f.stage.holds
  regular : ∀ f ∈ s.flights, f.stage.regular = true
  current : ∀ f ∈ s.flights, f.stage.isOpen = true → f.round = s.generation
  past : ∀ f ∈ s.flights, f.round ≤ s.generation
  nodup : s.hooks.Nodup
  fired : ∀ round ∈ s.hooks, round ≤ s.generation
  earlier : ∀ f ∈ s.flights, f.round < s.generation → f.stage.dispatched = true → f.round ∈ s.hooks
  single : s.concluding ≤ 1
  alone : 0 < s.concluding → s.outstanding = 0
  settled : s.outstanding = 0 → s.concluding = 0 → ∀ f ∈ s.flights, f.round = s.generation →
    f.stage.dispatched = true → s.generation ∈ s.hooks
  closed : s.generation ∈ s.hooks → s.state.reopenable = true ∧ s.outstanding = 0 ∧ s.concluding = 0
  reopen : s.state.reopenable = true → s.outstanding = 0
  labelled : ∀ f ∈ s.flights, f.stage = .hooking → s.state.reopenable = true

section Steps

variable {s t : Account} {i : ℕ} {f k : Flight}

namespace RoundOk

open List Option

variable (hs : RoundOk s)

include hs

section

variable (hf : f ∈ s.flights)

include hf

theorem outstanding_pos (hholds : f.stage.holds = true) : 0 < s.outstanding := by
  rw [hs.counted]
  exact countP_pos_iff.mpr ⟨f, hf, hholds⟩

omit hs in
theorem concluding_pos (hconcludes : f.stage.concludes = true) : 0 < s.concluding :=
  countP_pos_iff.mpr ⟨f, hf, hconcludes⟩

/-- While a flight holds a slot nobody concludes the round. -/
theorem concluding_of_holds (hholds : f.stage.holds = true) : s.concluding = 0 := by
  have hpos := hs.outstanding_pos hf hholds
  have halone := hs.alone
  omega

/-- With nothing outstanding and nobody concluding, no flight is open. -/
theorem none_open (hnone : s.outstanding = 0) (hidle : s.concluding = 0) :
    f.stage.isOpen = false := by
  by_contra hopen
  rcases (isOpen_iff (hs.regular f hf)).mp (by simpa using hopen) with hholds | hconcludes
  · have hpos := hs.outstanding_pos hf hholds
    omega
  · have hpos := concluding_pos hf hconcludes
    omega

/-- While a workflow is open the hook of the round has not fired. -/
theorem not_fired (hopen : f.stage.isOpen = true) : s.generation ∉ s.hooks := by
  intro hfired
  obtain ⟨-, hnone, hidle⟩ := hs.closed hfired
  rw [hs.none_open hf hnone hidle] at hopen
  cases hopen

omit hf in
omit hs in
theorem labelled_of_idle (hidle : s.concluding = 0) (g : Flight) (hg : g ∈ s.flights)
    (hstage : g.stage = .hooking) : s.state.reopenable = true := by
  have hpos := concluding_pos hg (by rw [hstage]; rfl)
  omega

theorem isOpen_of_holds (hholds : f.stage.holds = true) :
    f.stage.isOpen = true ∧ f.stage.concludes = false := by
  refine ⟨(isOpen_iff (hs.regular f hf)).mpr (.inl hholds), ?_⟩
  cases h : f.stage <;> simp_all [holds, concludes]

end

section

variable (hat : s.flights[i]? = some f)

include hat

/-- A flight that moves within its round keeps the invariant if the counts follow it. -/
theorem moved (hopen : f.stage.isOpen = true) (hround : k.round = f.round)
    (hregular : k.stage.regular = true) (hflights : t.flights = s.flights.set i k)
    (hgeneration : t.generation = s.generation) (hhooks : t.hooks = s.hooks)
    (hcount : t.outstanding + f.stage.holds.toNat = s.outstanding + k.stage.holds.toNat)
    (hsingle : t.concluding ≤ 1) (halone : 0 < t.concluding → t.outstanding = 0)
    (hleft : 0 < t.outstanding ∨ 0 < t.concluding ∨
      ∀ g ∈ t.flights, g.round = t.generation → g.stage.dispatched = false)
    (hreopen : t.state.reopenable = true → t.outstanding = 0)
    (hlabelled : ∀ g ∈ t.flights, g.stage = .hooking → t.state.reopenable = true) : RoundOk t := by
  have hf := mem_of_getElem? hat
  have hmem : ∀ g ∈ t.flights, g ∈ s.flights ∨ g = k := fun g hg =>
    mem_or_eq_of_mem_set (hflights ▸ hg)
  have hf' : k.round = s.generation := hround.trans (hs.current f hf hopen)
  have hcounts := Table.countP_set hat (fun f => f.stage.holds) k
  constructor
  · rw [hflights]
    have hcounted := hs.counted
    omega
  · intro g hg
    rcases hmem g hg with hg | rfl
    · exact hs.regular g hg
    · exact hregular
  · intro g hg hgopen
    rw [hgeneration]
    rcases hmem g hg with hg | rfl
    · exact hs.current g hg hgopen
    · exact hf'
  · intro g hg
    rw [hgeneration]
    rcases hmem g hg with hg | rfl
    · exact hs.past g hg
    · exact Nat.le_of_eq hf'
  · exact hhooks ▸ hs.nodup
  · rw [hhooks, hgeneration]
    exact hs.fired
  · intro g hg hlt hdispatched
    rw [hgeneration] at hlt
    rw [hhooks]
    rcases hmem g hg with hg | rfl
    · exact hs.earlier g hg hlt hdispatched
    · exact absurd hf' (Nat.ne_of_lt hlt)
  · exact hsingle
  · exact halone
  · intro hnone hidle g hg hcurrent hdispatched
    rcases hleft with hpos | hpos | hall
    · omega
    · omega
    · rw [hall g hg hcurrent] at hdispatched
      cases hdispatched
  · intro hfired
    rw [hgeneration, hhooks] at hfired
    exact absurd hfired (hs.not_fired hf hopen)
  · exact hreopen
  · exact hlabelled

theorem moved_holding (hholds : f.stage.holds = true) (hround : k.round = f.round)
    (hholds' : k.stage.holds = true) : RoundOk { s with flights := s.flights.set i k } := by
  have hf := mem_of_getElem? hat
  have hpos := hs.outstanding_pos hf hholds
  have hidle := hs.concluding_of_holds hf hholds
  obtain ⟨hopen, hconcludes⟩ := hs.isOpen_of_holds hf hholds
  have hk : k.stage.concludes = false ∧ k.stage.regular = true := by
    cases h : k.stage <;> simp_all [FlightStage.holds, FlightStage.concludes, FlightStage.regular]
  have hsame : concluding { s with flights := s.flights.set i k } = 0 := by
    have hcounts := Table.countP_set hat (fun f => f.stage.concludes) k
    rw [hconcludes, hk.1] at hcounts
    exact hcounts.trans hidle
  apply hs.moved (t := { s with flights := s.flights.set i k }) hat hopen hround hk.2 rfl rfl rfl
  · rw [hholds, hholds']
  · omega
  · omega
  · exact .inl hpos
  · exact hs.reopen
  · exact labelled_of_idle hsame

/-- A flight gives its slot back while others are outstanding, or before any was dispatched. -/
theorem gaveBack (hholds : f.stage.holds = true)
    (hover : stage.holds = false ∧ stage.concludes = false ∧ stage.regular = true)
    (hleft : 1 < s.outstanding ∨ stage.dispatched = false ∧
      ∀ g ∈ s.flights, g.round = s.generation → g.stage.dispatched = false) :
    RoundOk (s.set i f stage).decrement := by
  have hf := mem_of_getElem? hat
  have hpos := hs.outstanding_pos hf hholds
  have hidle := hs.concluding_of_holds hf hholds
  obtain ⟨hopen, hconcludes⟩ := hs.isOpen_of_holds hf hholds
  have hsame : (s.set i f stage).decrement.concluding = 0 := by
    have hcounts := Table.countP_set hat (fun f => f.stage.concludes) { f with stage := stage }
    rw [hconcludes, hover.2.1] at hcounts
    exact hcounts.trans hidle
  have hless : (s.set i f stage).decrement.outstanding = s.outstanding - 1 := rfl
  apply hs.moved (t := (s.set i f stage).decrement) (k := { f with stage := stage }) hat hopen rfl
    hover.2.2 rfl rfl rfl
  · rw [hholds, hover.1, hless]
    change s.outstanding - 1 + 1 = s.outstanding + 0
    omega
  · omega
  · omega
  · rcases hleft with hmany | ⟨hdropped, hnone⟩
    · exact .inl (by omega)
    · refine .inr (.inr ?_)
      intro g hg hcurrent
      rcases mem_or_eq_of_mem_set hg with hg | rfl
      · exact hnone g hg hcurrent
      · exact hdropped
  · intro hreopenable
    have hnone := hs.reopen hreopenable
    omega
  · exact labelled_of_idle hsame

/-- The decrement: the flight that brings the count to zero concludes the round. -/
theorem settles (hstage : f.stage = .closing) :
    RoundOk (s.set i f (if s.outstanding - 1 = 0 then .last else .settled)).decrement := by
  have hf := mem_of_getElem? hat
  have hholds : f.stage.holds = true := by rw [hstage]; rfl
  have hopen : f.stage.isOpen = true := by rw [hstage]; rfl
  have hpos := hs.outstanding_pos hf hholds
  have hidle := hs.concluding_of_holds hf hholds
  by_cases hlast : s.outstanding - 1 = 0
  · rw [if_pos hlast]
    have hone : (s.set i f .last).decrement.concluding = 1 := by
      have hcounts := Table.countP_set hat (fun f => f.stage.concludes) { f with stage := .last }
      rw [hstage] at hcounts
      exact hcounts.trans (congrArg (· + 1) hidle)
    have hless : (s.set i f .last).decrement.outstanding = s.outstanding - 1 := rfl
    apply hs.moved (t := (s.set i f .last).decrement) (k := { f with stage := .last }) hat hopen rfl
      rfl rfl rfl rfl
    · rw [hholds, hless]
      change s.outstanding - 1 + 1 = s.outstanding + 0
      omega
    · omega
    · omega
    · exact .inr (.inl (by omega))
    · omega
    · intro g hg hhooking
      rcases mem_or_eq_of_mem_set hg with hg | rfl
      · have hbusy := concluding_pos hg (by rw [hhooking]; rfl)
        omega
      · cases hhooking
  · rw [if_neg hlast]
    exact hs.gaveBack hat hholds ⟨rfl, rfl, rfl⟩ (.inl (by omega))

/-- The concluding flight writes the label before it runs the hook. -/
theorem concludes (hstage : f.stage = .last) (hstate : state.reopenable = true) :
    RoundOk { s.set i f .hooking with state := state } := by
  have hf := mem_of_getElem? hat
  have hopen : f.stage.isOpen = true := by rw [hstage]; rfl
  have hpos : 0 < s.concluding := concluding_pos hf (by rw [hstage]; rfl)
  have hnone := hs.alone hpos
  have hsingle := hs.single
  have hsame : concluding { s.set i f .hooking with state := state } = s.concluding := by
    have hcounts := Table.countP_set hat (fun f => f.stage.concludes) { f with stage := .hooking }
    rw [hstage] at hcounts
    exact Nat.add_right_cancel hcounts
  apply hs.moved (t := { s.set i f .hooking with state := state })
    (k := { f with stage := .hooking }) hat hopen rfl rfl rfl rfl rfl
  · rw [hstage]
    rfl
  · omega
  · exact fun _ => hnone
  · exact .inr (.inl (by omega))
  · exact fun _ => hnone
  · exact fun _ _ _ => hstate

/-- The hook of a round runs once: its flight is the only one that concludes. -/
theorem hooks (hstage : f.stage = .hooking) :
    RoundOk { s.set i f .settled with hooks := f.round :: s.hooks } := by
  have hf := mem_of_getElem? hat
  have hopen : f.stage.isOpen = true := by rw [hstage]; rfl
  have hpos : 0 < s.concluding := concluding_pos hf (by rw [hstage]; rfl)
  have hnone := hs.alone hpos
  have hsingle := hs.single
  have hround := hs.current f hf hopen
  have hfresh := hs.not_fired hf hopen
  have hidle : concluding { s.set i f .settled with hooks := f.round :: s.hooks } = 0 := by
    have hcounts := Table.countP_set hat (fun f => f.stage.concludes) { f with stage := .settled }
    rw [hstage] at hcounts
    change (s.flights.set i { f with stage := .settled }).countP (fun f => f.stage.concludes) + 1 =
      s.concluding at hcounts
    change (s.flights.set i { f with stage := .settled }).countP (fun f => f.stage.concludes) = 0
    omega
  have hmem : ∀ g ∈ s.flights.set i { f with stage := .settled },
      g ∈ s.flights ∨ g = { f with stage := .settled } := fun g hg => mem_or_eq_of_mem_set hg
  constructor
  · have hcounts := Table.countP_set hat (fun f => f.stage.holds) { f with stage := .settled }
    rw [hstage] at hcounts
    exact hs.counted.trans hcounts.symm
  · intro g hg
    rcases hmem g hg with hg | rfl
    · exact hs.regular g hg
    · rfl
  · intro g hg hgopen
    rcases hmem g hg with hg | rfl
    · exact hs.current g hg hgopen
    · exact hround
  · intro g hg
    rcases hmem g hg with hg | rfl
    · exact hs.past g hg
    · exact Nat.le_of_eq hround
  · exact nodup_cons.mpr ⟨hround ▸ hfresh, hs.nodup⟩
  · intro round hfired
    rcases mem_cons.mp hfired with rfl | hfired
    · exact Nat.le_of_eq hround
    · exact hs.fired round hfired
  · intro g hg hlt hdispatched
    rcases hmem g hg with hg | rfl
    · exact mem_cons_of_mem _ (hs.earlier g hg hlt hdispatched)
    · exact mem_cons_self
  · omega
  · omega
  · intro _ _ _ _ _ _
    exact mem_cons.mpr (.inl hround.symm)
  · intro _
    exact ⟨hs.labelled f hf hstage, hnone, hidle⟩
  · exact fun _ => hnone
  · exact labelled_of_idle hidle

end

omit hs in
theorem idle_of_guard (hguard : inOrder s (.dispatch n) = true) : s.concluding = 0 := by
  rw [concluding, countP_eq_zero]
  intro f hf
  simp only [inOrder, List.all_eq_true, and_eq_true, decide_eq_true_eq] at hguard
  have hnot := hguard f hf
  cases hstage : f.stage <;> simp_all [FlightStage.concludes]

/-- Flights join a round whose hook has not run. -/
theorem joined {round : ℕ} (hn : n ≠ 0) (hidle : s.concluding = 0) (hle : s.generation ≤ round)
    (hfresh : round ∉ s.hooks) (hopen : ∀ f ∈ s.flights, f.stage.isOpen = true → f.round = round)
    (hearlier : ∀ f ∈ s.flights, f.round < round → f.stage.dispatched = true → f.round ∈ s.hooks)
    (hstate : state.reopenable = false) :
    RoundOk { s with
      outstanding := s.outstanding + n
      generation := round
      state := state
      flights := s.flights ++ List.replicate n { round := round } } := by
  have hmem : ∀ g ∈ s.flights ++ List.replicate n { round := round }, g ∈ s.flights ∨
      g = { round := round } := by
    intro g hg
    exact (mem_append.mp hg).imp_right eq_of_mem_replicate
  have hsame : concluding { s with
      outstanding := s.outstanding + n
      generation := round
      state := state
      flights := s.flights ++ List.replicate n { round := round } } = 0 := by
    rw [concluding, countP_append, countP_replicate]
    exact hidle
  constructor
  · rw [countP_append, countP_replicate, ← hs.counted]
    rfl
  · intro g hg
    rcases hmem g hg with hg | rfl
    · exact hs.regular g hg
    · rfl
  · intro g hg hgopen
    rcases hmem g hg with hg | rfl
    · exact hopen g hg hgopen
    · rfl
  · intro g hg
    rcases hmem g hg with hg | rfl
    · exact Nat.le_trans (hs.past g hg) hle
    · exact Nat.le_refl _
  · exact hs.nodup
  · exact fun r hr => Nat.le_trans (hs.fired r hr) hle
  · intro g hg hlt hdispatched
    rcases hmem g hg with hg | rfl
    · exact hearlier g hg hlt hdispatched
    · exact absurd hlt (Nat.lt_irrefl _)
  · omega
  · omega
  · intro hnone
    change s.outstanding + n = 0 at hnone
    omega
  · exact fun hfired => absurd hfired hfresh
  · intro hreopenable
    change state.reopenable = true at hreopenable
    rw [hstate] at hreopenable
    cases hreopenable
  · exact labelled_of_idle hsame

/-- A dispatch joins the open round, or opens the next one when none is open. -/
theorem dispatch (hn : n ≠ 0) (hguard : inOrder s (.dispatch n) = true) :
    RoundOk (s.dispatch n) := by
  have hidle := idle_of_guard hguard
  rw [Account.dispatch]
  cases hreopenable : s.state.reopenable with
  | true =>
    have hnone := hs.reopen hreopenable
    simp only [ite_true]
    apply hs.joined hn hidle (Nat.le_succ _)
    · intro hfired
      have hle := hs.fired _ hfired
      omega
    · intro f hf hopen
      rw [hs.none_open hf hnone hidle] at hopen
      cases hopen
    · intro f hf hlt hdispatched
      rcases Nat.lt_or_eq_of_le (Nat.le_of_lt_succ hlt) with hearlier | hcurrent
      · exact hs.earlier f hf hearlier hdispatched
      · rw [hcurrent]
        exact hs.settled hnone hidle f hf hcurrent hdispatched
    · rfl
  | false =>
    simp only [false_eq_true, ite_false]
    apply hs.joined hn hidle (Nat.le_refl _) _ hs.current hs.earlier hreopenable
    intro hfired
    rw [(hs.closed hfired).1] at hreopenable
    cases hreopenable

end RoundOk

/-! ## A restart while everything is parked or over -/

/-- The workflow has a row that survives a restart, or nothing left to do. -/
def FlightStage.survives : FlightStage → Bool
  | .parked => true
  | .rolledBack => true
  | .settled => true
  | .stopped => true
  | _ => false

theorem crash_eq (hsurvives : ∀ f ∈ s.flights, f.stage.survives = true) : s.crash = s := by
  have hsame : ∀ f ∈ s.flights, { f with stage := f.stage.crashed } = id f := by
    intro f hf
    have hf := hsurvives f hf
    cases hstage : f.stage <;> simp_all [survives, crashed]
    all_goals rw [← hstage]
  rw [crash, map_congr_left hsame, List.map_id]

theorem settleJobs_eq (hnone : ∀ f ∈ s.flights, f.stage ≠ .dropped) : s.settleJobs = s := by
  have hfilter : s.flights.filter (fun f => f.stage = .dropped) = [] := by
    rw [filter_eq_nil_iff]
    intro f hf
    simpa using hnone f hf
  have hsame : ∀ f ∈ s.flights,
      (if f.stage = .dropped then { f with stage := .settled } else f) = id f :=
    fun f hf => if_neg (hnone f hf)
  rw [settleJobs, hfilter, map_congr_left hsame, List.map_id]
  rfl

theorem RoundOk.recount_eq (hs : RoundOk s)
    (hsurvives : ∀ f ∈ s.flights, f.stage.survives = true) : s.recount = s := by
  have hsame : s.flights.countP (fun f => f.stage = .parked) =
      s.flights.countP fun f => f.stage.holds := by
    apply countP_congr
    intro f hf
    have hf := hsurvives f hf
    cases hstage : f.stage <;> simp_all [survives, holds]
  rw [recount]
  split
  · rfl
  · rw [hsame, ← hs.counted]

/-- A task is stranded only when its hook has not fired. -/
theorem RoundOk.settleStranded_eq (hs : RoundOk s) (hidle : s.concluding = 0) :
    s.settleStranded = s := by
  rw [settleStranded]
  apply if_neg
  intro hstranded
  simp only [and_eq_true, decide_eq_true_eq, List.any_eq_true] at hstranded
  obtain ⟨⟨hrunning, hnone⟩, f, hf, hcurrent, hsettled⟩ := hstranded
  have hfired := hs.settled hnone hidle f hf hcurrent (by rw [hsettled]; rfl)
  have hreopenable := (hs.closed hfired).1
  rw [hrunning] at hreopenable
  cases hreopenable

/-- A restart with nothing lost in flight changes no count. -/
theorem RoundOk.restart (hs : RoundOk s) (hguard : inOrder s .restart = true) :
    RoundOk s.restart := by
  simp only [inOrder, and_eq_true, List.all_eq_true] at hguard
  obtain ⟨hstages, hretry⟩ := hguard
  have hsurvives : ∀ f ∈ s.flights, f.stage.survives = true := by
    intro f hf
    have hf := hstages f hf
    cases hstage : f.stage <;> simp_all [FlightStage.survives]
  have hidle : s.concluding = 0 := by
    rw [concluding, countP_eq_zero]
    intro f hf
    have hf := hsurvives f hf
    cases hstage : f.stage <;> simp_all [FlightStage.survives, FlightStage.concludes]
  have hjobs : s.settleJobs = s := settleJobs_eq fun f hf hdropped => by
    have hf := hsurvives f hf
    rw [hdropped] at hf
    cases hf
  rw [Account.restart, crash_eq hsurvives, hjobs, hs.recount_eq hsurvives,
    hs.settleStranded_eq hidle, Account.propagateInterrupted]
  split_ifs with hinterrupted
  · simp only [and_eq_true, not_eq_true', decide_eq_true_eq, List.any_eq_true,
      or_eq_true] at hinterrupted
    obtain ⟨⟨⟨⟨hopen, -⟩, -⟩, f, hf, hstage⟩, -⟩ := hinterrupted
    -- a stop has left its row, so the task does not wait for a retry
    have hstate : s.state.reopenable = false := by
      have hnot : s.state ≠ .blocked .retryBackoff := by
        intro hbackoff
        have hf' := hsurvives f hf
        rcases hstage with hstopped | hinterrupted
        · have hall : ∀ f ∈ s.flights, f.stage ≠ .stopped := by simpa [hbackoff] using hretry
          exact hall f hf hstopped
        · rw [hinterrupted] at hf'
          cases hf'
      simp [TaskState.reopenable, hopen, hnot]
    exact { hs with
      closed := fun hfired => by
        rw [(hs.closed hfired).1] at hstate
        cases hstate
      reopen := nofun
      labelled := RoundOk.labelled_of_idle hidle }
  · exact hs

/-! ## Whole runs -/

theorem move_eq_some {go : Flight → Account} (hmove : s.move i stage go = some t) :
    ∃ f, s.flights[i]? = some f ∧ f.stage = stage ∧ t = go f := by
  obtain ⟨f, hat, hstep⟩ := bind_eq_some_iff.mp hmove
  obtain ⟨hcond, hstep⟩ := ite_none_right_eq_some.mp hstep
  exact ⟨f, hat, ‹_›, (some.inj hstep).symm⟩

theorem finalState_reopenable (s : Account) (failed retry : Bool) :
    (s.finalState failed retry).reopenable = true := by
  rw [finalState]
  split
  · split <;> rfl
  · rfl

/-- Every event in order keeps the invariant. -/
theorem RoundOk.step {ev : RoundEvent} (hs : RoundOk s) (hguard : inOrder s ev = true)
    (hstep : roundStep s ev = some t) : RoundOk t := by
  cases ev with
  | dispatch =>
    obtain ⟨hcond, ⟨⟩⟩ := ite_none_left_eq_some.mp hstep
    exact hs.dispatch ‹_› hguard
  | enqueue i created =>
    obtain ⟨f, hat, hstage, rfl⟩ := move_eq_some hstep
    cases created with
    | true => exact hs.moved_holding hat (by rw [hstage]; rfl) rfl rfl
    | false =>
      apply hs.gaveBack hat (by rw [hstage]; rfl) ⟨rfl, rfl, rfl⟩
      simp only [inOrder, or_eq_true, decide_eq_true_eq, List.all_eq_true] at hguard
      refine hguard.imp id fun hall => ⟨rfl, fun g hg hcurrent => ?_⟩
      simpa [hcurrent] using hall g hg
  | start | park | wake | finish =>
    obtain ⟨f, hat, hstage, rfl⟩ := move_eq_some hstep
    exact hs.moved_holding hat (by rw [hstage]; rfl) rfl rfl
  | skip | abort | redeliver => cases hguard
  | decrement =>
    obtain ⟨f, hat, hstage, rfl⟩ := move_eq_some hstep
    exact hs.settles hat hstage
  | conclude i retry =>
    obtain ⟨f, hat, hstage, rfl⟩ := move_eq_some hstep
    exact hs.concludes hat hstage (finalState_reopenable s f.failed retry)
  | hook =>
    obtain ⟨f, hat, hstage, rfl⟩ := move_eq_some hstep
    exact hs.hooks hat hstage
  | stop =>
    obtain ⟨f, hat, hstop⟩ := bind_eq_some_iff.mp hstep
    obtain ⟨hstage, ⟨⟩⟩ := ite_none_right_eq_some.mp hstop
    have hholds : f.stage.holds = true := by
      simp only [or_eq_true, and_eq_true, decide_eq_true_eq] at hstage
      rcases hstage with hparked | ⟨hrunning, -⟩
      · rw [hparked]; rfl
      · rw [hrunning]; rfl
    have hmany : 1 < s.outstanding := by simpa [inOrder] using hguard
    exact hs.gaveBack hat hholds ⟨rfl, rfl, rfl⟩ (.inl hmany)
  | restart => exact some.inj hstep ▸ hs.restart hguard

end Steps

end Apiary.Daemon
