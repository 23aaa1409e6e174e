import Mathlib.Data.List.Induction
import Mathlib.Data.List.Perm.Basic

/-!
# Costs of executions from a usage dashboard

Some runners report no cost.  The events of the provider's dashboard are attributed to the
finished executions that have none: first by the token counts, then by time alone.
-/

namespace Apiary.Daemon

open List

structure TokenUsage where
  input : ℕ
  output : ℕ
  cacheWrite : ℕ := 0
  cacheRead : ℕ := 0
  deriving DecidableEq

/-- `time` is what `Time` returns, if the timestamp parses.  Nothing reads `ref`, which tells
the events of the dashboard apart. -/
structure UsageEvent where
  ref : ℕ
  time : Option ℕ
  usage : Option TokenUsage := none
  deriving DecidableEq

structure RunWindow where
  id : ℕ
  start : ℕ
  stop : ℕ
  input : ℕ
  output : ℕ
  cacheWrite : ℕ := 0
  cacheRead : ℕ := 0

/-- Fifteen minutes, in milliseconds. -/
def fingerprintSkew : ℕ := 900000

def fingerprintMatch (ev : UsageEvent) (r : RunWindow) : Bool :=
  ev.usage.any fun tu => tu.input + tu.cacheWrite + tu.cacheRead = r.input &&
    tu.output = r.output && tu.cacheWrite = r.cacheWrite && tu.cacheRead = r.cacheRead

def inWindow (skew : ℕ) (r : RunWindow) (t : ℕ) : Bool := r.start ≤ t + skew && t ≤ r.stop + skew

def near (skew : ℕ) (ev : UsageEvent) (r : RunWindow) : Bool := ev.time.any (inWindow skew r)

def fits (ev : UsageEvent) (r : RunWindow) : Bool :=
  fingerprintMatch ev r && near fingerprintSkew ev r

/-- The map of attributions, as the log of what was added to it: `added` has the events with
the ids of their runs, and `ambiguous` an id for each event that fits the run among others.
`left` are the events that the first pass has not taken. -/
structure Matching where
  added : List (ℕ × UsageEvent) := []
  matched : List ℕ := []
  left : List UsageEvent := []
  ambiguous : List ℕ := []

def Matching.eventsOf (m : Matching) (id : ℕ) : List UsageEvent :=
  (m.added.filter fun a => a.1 = id).map Prod.snd

def only : List RunWindow → Option RunWindow
  | [r] => some r
  | _ => none

section Attribute

variable (runs : List RunWindow) (skew : ℕ)

def fingerprintHit (matched : List ℕ) (ev : UsageEvent) : Option RunWindow :=
  only (runs.filter fun r => r.id ∉ matched && fits ev r)

def fingerprintPass (m : Matching) (ev : UsageEvent) : Matching :=
  match fingerprintHit runs m.matched ev with
  | some r => { m with added := m.added ++ [(r.id, ev)], matched := m.matched ++ [r.id] }
  | none => { m with left := m.left ++ [ev] }

def windowHits (matched : List ℕ) (ev : UsageEvent) : List RunWindow :=
  runs.filter fun r => r.id ∉ matched && near skew ev r

def windowPass (m : Matching) (ev : UsageEvent) : Matching :=
  match only (windowHits runs skew m.matched ev) with
  | some r => { m with added := m.added ++ [(r.id, ev)] }
  | none => { m with
      ambiguous := m.ambiguous ++ (windowHits runs skew m.matched ev).map RunWindow.id }

def attributeEvents (events : List UsageEvent) : Matching :=
  let m := events.foldl (fingerprintPass runs) {}
  m.left.foldl (windowPass runs skew) m

end Attribute

variable {runs runs' : List RunWindow} {skew id : ℕ} {m : Matching} {ev : UsageEvent}
  {events events' : List UsageEvent} {matched matched' : List ℕ} {r : RunWindow}

theorem only_eq_some {rs : List RunWindow} (hr : only rs = some r) : rs = [r] := by
  rw [only.eq_def] at hr
  split at hr
  · rw [Option.some.inj hr]
  · cases hr

theorem only_perm {rs rs' : List RunWindow} (hperm : rs.Perm rs') : only rs = only rs' := by
  cases hr : only rs with
  | some =>
    rw [only_eq_some hr] at hperm
    rw [perm_singleton.mp hperm.symm, only]
  | none =>
    cases hr' : only rs' with
    | none => rfl
    | some =>
      rw [only_eq_some hr'] at hperm
      rw [perm_singleton.mp hperm, only] at hr
      cases hr

/-- The second pass looks at each event alone. -/
theorem foldl_windowPass_added (left : List UsageEvent) :
    (left.foldl (windowPass runs skew) m).added = m.added ++ left.filterMap fun ev =>
      (only (windowHits runs skew m.matched ev)).map fun r => (r.id, ev) := by
  induction left generalizing m with
  | nil => simp
  | cons ev left ih =>
    have hmatched : (windowPass runs skew m ev).matched = m.matched := by
      rw [windowPass]
      split <;> rfl
    rw [foldl_cons, ih, hmatched, filterMap_cons, windowPass]
    cases only (windowHits runs skew m.matched ev) with
    | none => rfl
    | some => simp

/-! ## The order of events and runs -/

/-- Two events that fit a run in common both fit others too. -/
def Unshared (runs : List RunWindow) (ev ev' : UsageEvent) : Prop :=
  ∀ r ∈ runs, ∀ r' ∈ runs, fits ev r = true → fits ev' r' = true → r.id = r'.id →
    fingerprintHit runs [] ev = none ∧ fingerprintHit runs [] ev' = none

/-- The first pass, when no event changes what another one finds. -/
def alone (runs : List RunWindow) (events : List UsageEvent) : Matching where
  added := events.filterMap fun ev => (fingerprintHit runs [] ev).map fun r => (r.id, ev)
  matched := events.filterMap fun ev => (fingerprintHit runs [] ev).map RunWindow.id
  left := events.filter fun ev => (fingerprintHit runs [] ev).isNone

theorem fingerprintHit_eq_some (hr : fingerprintHit runs matched ev = some r) :
    r ∈ runs ∧ fits ev r = true := by
  have hmem : r ∈ runs.filter fun r => r.id ∉ matched && fits ev r := by
    rw [only_eq_some hr]
    exact mem_singleton_self r
  rw [mem_filter, Bool.and_eq_true] at hmem
  exact ⟨hmem.1, hmem.2.2⟩

theorem foldl_fingerprintPass (hunshared : events.Pairwise (Unshared runs)) :
    events.foldl (fingerprintPass runs) {} = alone runs events := by
  induction events using List.reverseRecOn with
  | nil => rfl
  | append_singleton events ev ih =>
    rw [pairwise_append] at hunshared
    have hhit : fingerprintHit runs (alone runs events).matched ev = fingerprintHit runs [] ev := by
      rw [fingerprintHit, fingerprintHit]
      congr 1
      apply filter_congr
      intro r hr
      cases hfits : fits ev r with
      | false => simp
      | true =>
        have hfree : r.id ∉ (alone runs events).matched := by
          intro hmatched
          obtain ⟨other, hother, hsole⟩ := mem_filterMap.mp hmatched
          obtain ⟨r', hr', hid⟩ := Option.map_eq_some_iff.mp hsole
          obtain ⟨hmem', hfits'⟩ := fingerprintHit_eq_some hr'
          have hboth := hunshared.2.2 other hother ev mem_cons_self r' hmem' r hr hfits' hfits hid
          rw [hboth.1] at hr'
          cases hr'
        simp [hfree]
    rw [foldl_append, ih hunshared.1, foldl_cons, foldl_nil, fingerprintPass, hhit]
    cases hsole : fingerprintHit runs [] ev <;> simp [alone, hsole]

theorem hits_perm (hperm : runs'.Perm runs) (p : RunWindow → Bool) :
    only (runs'.filter p) = only (runs.filter p) := only_perm (hperm.filter p)

/-- The order of the runs does not matter.  That of the events does not when two events that
fit a run in common both fit others too. -/
theorem attribute_order_independent (runs : List RunWindow) (skew : ℕ) (events : List UsageEvent) :
    (∀ runs', runs'.Perm runs →
      (attributeEvents runs' skew events).added = (attributeEvents runs skew events).added) ∧
    (events.Pairwise (Unshared runs) → ∀ events', events'.Perm events → ∀ id,
      ((attributeEvents runs skew events').eventsOf id).Perm
        ((attributeEvents runs skew events).eventsOf id)) := by
  constructor
  · intro runs' hperm
    have hfirst : fingerprintPass runs' = fingerprintPass runs := by
      funext m ev
      rw [fingerprintPass, fingerprintPass, fingerprintHit, fingerprintHit, hits_perm hperm]
    rw [attributeEvents, attributeEvents, hfirst, foldl_windowPass_added, foldl_windowPass_added]
    simp only [windowHits, hits_perm hperm]
  · intro hunshared events' hperm id
    have hsymm : ∀ ev ev', Unshared runs ev ev' → Unshared runs ev' ev :=
      fun ev ev' h r hr r' hr' hfits hfits' hid => (h r' hr' r hr hfits' hfits hid.symm).symm
    have hunshared' := (hperm.pairwise_iff (hsymm _ _)).mpr hunshared
    have hmatched : ∀ id, id ∈ (alone runs events').matched ↔ id ∈ (alone runs events).matched :=
      fun id => (hperm.filterMap _).mem_iff
    refine Perm.map _ (Perm.filter _ ?_)
    rw [attributeEvents, attributeEvents, foldl_fingerprintPass hunshared,
      foldl_fingerprintPass hunshared', foldl_windowPass_added, foldl_windowPass_added]
    simp only [windowHits, hmatched]
    exact (hperm.filterMap _).append ((hperm.filter _).filterMap _)

/-- Two runs with the same token counts, half an hour apart. -/
def twins : List RunWindow :=
  [⟨1, 3600000, 4200000, 900, 40, 0, 0⟩, ⟨2, 5100000, 5400000, 900, 40, 0, 0⟩]

/-- Between the two runs each event fits both, and neither order attributes by fingerprint. -/
theorem twins_shared_order_independent :
    let early : UsageEvent := { ref := 1, time := some 4320000, usage := some ⟨900, 40, 0, 0⟩ }
    let late : UsageEvent := { ref := 2, time := some 4500000, usage := some ⟨900, 40, 0, 0⟩ }
    (∀ r ∈ twins, fits early r = true ∧ fits late r = true) ∧ ∀ id,
      ((attributeEvents twins 120000 [late, early]).eventsOf id).Perm
        ((attributeEvents twins 120000 [early, late]).eventsOf id) := by
  intro early late
  have hunshared : [early, late].Pairwise (Unshared twins) :=
    pairwise_pair.mpr fun _ _ _ _ _ _ _ => ⟨by decide, by decide⟩
  exact ⟨by decide, (attribute_order_independent twins 120000 [early, late]).2 hunshared _
    (.swap early late [])⟩

/-- The first event is close to the first run only, the second one to both: listed oldest
first it goes to the second run, and listed newest first to neither. -/
theorem twins_order_dependent :
    let early : UsageEvent := { ref := 1, time := some 3900000, usage := some ⟨900, 40, 0, 0⟩ }
    let late : UsageEvent := { ref := 2, time := some 4320000, usage := some ⟨900, 40, 0, 0⟩ }
    (attributeEvents twins 120000 [early, late]).eventsOf 2 = [late] ∧
      (attributeEvents twins 120000 [late, early]).eventsOf 2 = [] := by
  decide

end Apiary.Daemon
