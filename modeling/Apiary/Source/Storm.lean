import Apiary.Source.Groups
import Mathlib.Algebra.Order.Floor.Div

/-!
# The storm cap

Without `dispatch_by: group` every firing alert is an item of its own.  A poll sorts
the eligible alerts by their start.  It returns those it has returned before and at
most `maxNewPerPoll` others, and then forgets every id it did not return.

`sort.Slice` is not stable, so alerts of one start may change places from poll to poll.
-/

namespace Apiary.Source.Storm

local instance : LawfulBEq Text := inferInstance

/-- What `Poll` reads of an alert; its other fields may change from poll to poll. -/
structure Alert where
  fingerprint : Text
  startsAt : ℕ
  deriving DecidableEq

def itemID (al : Alert) : Text := al.fingerprint ++ ':' :: rfc3339 al.startsAt

def eligible (minAge now : ℕ) (alerts : List Alert) : List Alert :=
  alerts.filter fun al => !al.fingerprint.isEmpty && decide (al.startsAt + minAge ≤ now)

def OldestFirst (alerts : List Alert) : Prop := alerts.Pairwise fun x y => x.startsAt ≤ y.startsAt

structure Adapter extends Settings where
  sort : List Alert → List Alert
  perm : ∀ alerts, (sort alerts).Perm alerts
  sorted : ∀ alerts, OldestFirst (sort alerts)

/-- The variables of the loop of `Poll`. -/
structure Pass where
  seen : List Text
  current : List Text
  items : List Alert
  newCount : ℕ

def Pass.visit (cap : ℕ) (p : Pass) (al : Alert) : Pass :=
  let id := itemID al
  let current := id :: p.current
  if id ∈ p.seen then { p with current := current, items := p.items ++ [al] }
  else if 0 < cap ∧ cap ≤ p.newCount then { p with current := current.filter (· ≠ id) }
  else ⟨id :: p.seen, current, p.items ++ [al], p.newCount + 1⟩

/-- `Poll`: the ids it remembers and the alerts it returns. -/
def Adapter.poll (a : Adapter) (seen : List Text) (now : ℕ) (alerts : List Alert) :
    List Text × List Alert :=
  let sorted := a.sort (eligible a.minAge now alerts)
  let p := sorted.foldl (Pass.visit a.maxNewPerPoll) ⟨seen, [], [], 0⟩
  (p.seen.filter (· ∈ p.current), p.items)

/-- Polls in a row, each with its clock and its listing: the ids remembered in the end
and what every poll returned. -/
def Adapter.polls (a : Adapter) (seen : List Text) (rounds : List (ℕ × List Alert)) :
    List Text × List (List Alert) :=
  rounds.foldl (fun s r => let polled := a.poll s.1 r.1 r.2; (polled.1, s.2 ++ [polled.2]))
    (seen, [])

variable {cap now : ℕ} {seen : List Text} {alerts visited : List Alert}

/-! ## One poll -/

/-- What the loop has done with `visited` when it started from `seen`. -/
structure Pass.Visited (cap : ℕ) (seen : List Text) (visited : List Alert) (p : Pass) : Prop where
  items : p.items = visited.filter (itemID · ∈ p.seen)
  current : ∀ al ∈ visited, itemID al ∈ p.seen → itemID al ∈ p.current
  kept : ∀ id ∈ seen, id ∈ p.seen
  named : ∀ id ∈ p.seen, id ∈ seen ∨ ∃ y ∈ visited, itemID y = id
  capped : 0 < cap → p.newCount ≤ cap
  count : (visited.map itemID).Nodup →
    visited.countP (itemID · ∉ p.seen) + p.newCount = visited.countP (itemID · ∉ seen)
  /-- An alert waits only when the cap is used up, by alerts that start no later. -/
  waiting : ∀ x ∈ visited, itemID x ∉ p.seen → (0 < cap ∧ cap ≤ p.newCount) ∧
    ∀ id ∈ p.seen, id ∈ seen ∨ ∃ y ∈ visited, itemID y = id ∧ y.startsAt ≤ x.startsAt

section Visit

variable {p : Pass} {al : Alert}

theorem exists_mem_concat {P : Alert → Prop} (h : ∃ y ∈ visited, P y) :
    ∃ y ∈ visited ++ [al], P y := by
  obtain ⟨y, hy, hP⟩ := h
  exact ⟨y, List.mem_append_left _ hy, hP⟩

theorem countP_notMem_concat (ids : List Text) :
    (visited ++ [al]).countP (itemID · ∉ ids) =
      visited.countP (itemID · ∉ ids) + if itemID al ∈ ids then 0 else 1 := by
  rw [List.countP_append, List.countP_singleton]
  by_cases hal : itemID al ∈ ids <;> simp [hal]

theorem nodup_map_concat (hids : ((visited ++ [al]).map itemID).Nodup) :
    (visited.map itemID).Nodup ∧ ∀ y ∈ visited, itemID y ≠ itemID al := by
  rw [List.map_append, List.nodup_append] at hids
  refine ⟨hids.1, fun y hy => ?_⟩
  exact hids.2.2 _ (List.mem_map_of_mem hy) _ (List.mem_singleton_self _)

/-- An alert that waited goes on waiting, for the reason it had. -/
theorem Pass.Visited.waits (hp : p.Visited cap seen visited) {x : Alert} (hx : x ∈ visited)
    (hwaits : itemID x ∉ p.seen) : (0 < cap ∧ cap ≤ p.newCount) ∧ ∀ id ∈ p.seen, id ∈ seen ∨
      ∃ y ∈ visited ++ [al], itemID y = id ∧ y.startsAt ≤ x.startsAt := by
  obtain ⟨hfull, hearlier⟩ := hp.waiting x hx hwaits
  exact ⟨hfull, fun id hid => (hearlier id hid).imp_right exists_mem_concat⟩

/-- An id that was returned before is returned again. -/
theorem Pass.Visited.again (hp : p.Visited cap seen visited) (hal : itemID al ∈ p.seen) :
    Pass.Visited cap seen (visited ++ [al])
      { p with current := itemID al :: p.current, items := p.items ++ [al] } where
  items := by
    have hkept : [al].filter (itemID · ∈ p.seen) = [al] := by simp [hal]
    rw [List.filter_append, ← hp.items, hkept]
  current x hx hshown := by
    rcases List.mem_append.mp hx with hx | hx
    · exact List.mem_cons_of_mem _ (hp.current x hx hshown)
    · rw [List.mem_singleton.mp hx]
      exact List.mem_cons_self
  kept := hp.kept
  named id hid := (hp.named id hid).imp_right exists_mem_concat
  capped := hp.capped
  count hids := by
    obtain ⟨hids, hother⟩ := nodup_map_concat hids
    have hold : itemID al ∈ seen := by
      refine (hp.named _ hal).resolve_right ?_
      rintro ⟨y, hy, hid⟩
      exact hother y hy hid
    rw [countP_notMem_concat, countP_notMem_concat, if_pos hal, if_pos hold]
    exact hp.count hids
  waiting x hx hwaits := by
    rcases List.mem_append.mp hx with hx | hx
    · exact hp.waits hx hwaits
    · rw [List.mem_singleton.mp hx] at hwaits
      exact absurd hal hwaits

/-- With the cap used up a new alert is passed over. -/
theorem Pass.Visited.passOver (hp : p.Visited cap seen visited)
    (hlast : ∀ y ∈ visited, y.startsAt ≤ al.startsAt) (hal : itemID al ∉ p.seen)
    (hfull : 0 < cap ∧ cap ≤ p.newCount) :
    Pass.Visited cap seen (visited ++ [al])
      { p with current := (itemID al :: p.current).filter (· ≠ itemID al) } where
  items := by
    have hdropped : [al].filter (itemID · ∈ p.seen) = [] := by simp [hal]
    rw [List.filter_append, ← hp.items, hdropped, List.append_nil]
  current x hx hshown := by
    rcases List.mem_append.mp hx with hx | hx
    · refine List.mem_filter.mpr ⟨List.mem_cons_of_mem _ (hp.current x hx hshown), ?_⟩
      rw [decide_eq_true_eq]
      intro hid
      exact hal (hid ▸ hshown)
    · rw [List.mem_singleton.mp hx] at hshown
      exact absurd hshown hal
  kept := hp.kept
  named id hid := (hp.named id hid).imp_right exists_mem_concat
  capped := hp.capped
  count hids := by
    have hnew : itemID al ∉ seen := fun h => hal (hp.kept _ h)
    rw [countP_notMem_concat, countP_notMem_concat, if_neg hal, if_neg hnew,
      ← hp.count (nodup_map_concat hids).1]
    exact Nat.add_right_comm _ 1 p.newCount
  waiting x hx hwaits := by
    rcases List.mem_append.mp hx with hx | hx
    · exact hp.waits hx hwaits
    · rw [List.mem_singleton.mp hx]
      refine ⟨hfull, fun id hid => (hp.named id hid).imp_right ?_⟩
      rintro ⟨y, hy, rfl⟩
      exact ⟨y, List.mem_append_left _ hy, rfl, hlast y hy⟩

/-- Nothing waits while the cap is not used up, and a new alert is returned. -/
theorem Pass.Visited.add (hp : p.Visited cap seen visited) (hal : itemID al ∉ p.seen)
    (hroom : ¬ (0 < cap ∧ cap ≤ p.newCount)) :
    Pass.Visited cap seen (visited ++ [al])
      ⟨itemID al :: p.seen, itemID al :: p.current, p.items ++ [al], p.newCount + 1⟩ := by
  have hall : ∀ y ∈ visited, itemID y ∈ p.seen := fun y hy =>
    by_contra fun h => hroom (hp.waiting y hy h).1
  have hshown : ∀ y ∈ visited ++ [al], itemID y ∈ itemID al :: p.seen := by
    intro y hy
    rcases List.mem_append.mp hy with hy | hy
    · exact List.mem_cons_of_mem _ (hall y hy)
    · rw [List.mem_singleton.mp hy]
      exact List.mem_cons_self
  have hnone : ∀ (l : List Alert) (ids : List Text), (∀ y ∈ l, itemID y ∈ ids) →
      l.countP (itemID · ∉ ids) = 0 := fun l ids hids =>
    List.countP_eq_zero.mpr (by simpa using hids)
  constructor
  case items =>
    have hitems : p.items = visited :=
      hp.items.trans (List.filter_eq_self.mpr (by simpa using hall))
    rw [hitems, List.filter_eq_self.mpr (by simpa using hshown)]
  case current =>
    intro x hx _
    rcases List.mem_append.mp hx with hx | hx
    · exact List.mem_cons_of_mem _ (hp.current x hx (hall x hx))
    · rw [List.mem_singleton.mp hx]
      exact List.mem_cons_self
  case kept => exact fun id hid => List.mem_cons_of_mem _ (hp.kept id hid)
  case named =>
    intro id hid
    rcases List.mem_cons.mp hid with rfl | hid
    · exact .inr ⟨al, by simp, rfl⟩
    · exact (hp.named id hid).imp_right exists_mem_concat
  case capped =>
    intro hcap
    exact Nat.not_le.mp fun h => hroom ⟨hcap, h⟩
  case count =>
    intro hids
    have hnew : itemID al ∉ seen := fun h => hal (hp.kept _ h)
    have hcount := hp.count (nodup_map_concat hids).1
    rw [hnone visited _ hall] at hcount
    rw [hnone _ _ hshown, countP_notMem_concat, if_neg hnew, ← hcount]
    exact (Nat.add_assoc 0 p.newCount 1).symm
  case waiting => exact fun x hx hwaits => absurd (hshown x hx) hwaits

end Visit

theorem Pass.Visited.visit {p : Pass} (hp : p.Visited cap seen visited) {al : Alert}
    (hlast : ∀ y ∈ visited, y.startsAt ≤ al.startsAt) :
    (p.visit cap al).Visited cap seen (visited ++ [al]) := by
  simp only [Pass.visit]
  split_ifs with hal hfull
  · exact hp.again hal
  · exact hp.passOver hlast hal hfull
  · exact hp.add hal hfull

theorem visited_foldl {sorted : List Alert} (hsorted : OldestFirst sorted) :
    (sorted.foldl (Pass.visit cap) ⟨seen, [], [], 0⟩).Visited cap seen sorted := by
  induction sorted using List.reverseRecOn with
  | nil => constructor <;> simp +contextual
  | append_singleton visited al ih =>
    obtain ⟨hvisited, -, hlast⟩ := List.pairwise_append.mp hsorted
    rw [List.foldl_append]
    exact (ih hvisited).visit fun y hy => hlast y hy al (List.mem_singleton_self al)

/-- What a poll does when `alerts` are eligible. -/
structure Polled (cap : ℕ) (alerts : List Alert) (seen : List Text) (out : List Text × List Alert) :
    Prop where
  mem : ∀ al, al ∈ out.2 ↔ al ∈ alerts ∧ itemID al ∈ out.1
  kept : ∀ al ∈ alerts, itemID al ∈ seen → itemID al ∈ out.1
  sorted : OldestFirst out.2
  new : 0 < cap → (alerts.map itemID).Nodup → out.2.countP (itemID · ∉ seen) ≤ cap
  count : (alerts.map itemID).Nodup →
    alerts.countP (itemID · ∉ out.1) ≤ alerts.countP (itemID · ∉ seen) - cap
  order : (alerts.map itemID).Nodup → ∀ x ∈ alerts, itemID x ∉ out.1 →
    ∀ y ∈ alerts, itemID y ∈ out.1 → itemID y ∈ seen ∨ y.startsAt ≤ x.startsAt

theorem Adapter.polled (a : Adapter) (seen : List Text) {listing : List Alert}
    (hfixed : (eligible a.minAge now listing).Perm alerts) :
    Polled a.maxNewPerPoll alerts seen (a.poll seen now listing) := by
  have hperm := (a.perm (eligible a.minAge now listing)).trans hfixed
  have hsorted := a.sorted (eligible a.minAge now listing)
  obtain ⟨hitems, hcurrent, hkept, -, hcapped, hcount, hwaiting⟩ :=
    @visited_foldl a.maxNewPerPoll seen _ hsorted
  simp only [Adapter.poll]
  generalize a.sort (eligible a.minAge now listing) = sorted at *
  generalize sorted.foldl (Pass.visit a.maxNewPerPoll) ⟨seen, [], [], 0⟩ = p at *
  have hmem : ∀ al ∈ alerts, (itemID al ∈ p.seen.filter (· ∈ p.current) ↔ itemID al ∈ p.seen) := by
    intro al hal
    simpa using hcurrent al (hperm.mem_iff.mpr hal)
  have hids : (alerts.map itemID).Nodup → (sorted.map itemID).Nodup := (hperm.map _).nodup_iff.mpr
  constructor
  case mem =>
    intro al
    rw [hitems, List.mem_filter, hperm.mem_iff, decide_eq_true_iff]
    exact and_congr_right fun hal => (hmem al hal).symm
  case kept => exact fun al hal hold => (hmem al hal).mpr (hkept _ hold)
  case sorted => exact hitems ▸ hsorted.filter _
  case new =>
    intro hcap hdistinct
    have hsplit := sorted.countP_eq_countP_filter_add (itemID · ∉ seen) (itemID · ∈ p.seen)
    have hrest : (sorted.filter (fun al => !decide (itemID al ∈ p.seen))).countP (itemID · ∉ seen) =
        sorted.countP (itemID · ∉ p.seen) := by
      rw [List.countP_filter]
      refine List.countP_congr fun al _ => ?_
      by_cases hal : itemID al ∈ p.seen
      · simp [hal]
      · have hnew : itemID al ∉ seen := fun h => hal (hkept _ h)
        simp [hal, hnew]
    rw [hrest, ← hitems] at hsplit
    have hsum := hcount (hids hdistinct)
    have hle := hcapped hcap
    change p.items.countP (itemID · ∉ seen) ≤ a.maxNewPerPoll
    omega
  case count =>
    intro hdistinct
    have hwas : alerts.countP (itemID · ∉ p.seen.filter (· ∈ p.current)) =
        sorted.countP (itemID · ∉ p.seen) := by
      rw [hperm.countP_eq]
      exact List.countP_congr fun al hal => by simp only [hmem al hal]
    rw [hwas, ← hperm.countP_eq]
    by_cases hall : ∀ x ∈ sorted, itemID x ∈ p.seen
    · rw [List.countP_eq_zero.mpr (by simpa using hall)]
      exact Nat.zero_le _
    · push Not at hall
      obtain ⟨x, hx, hwaits⟩ := hall
      have := (hwaiting x hx hwaits).1.2
      have := hcount (hids hdistinct)
      omega
  case order =>
    intro hdistinct x hx hwaits y hy hshown
    rw [hmem x hx] at hwaits
    rw [hmem y hy] at hshown
    refine ((hwaiting x (hperm.mem_iff.mpr hx) hwaits).2 _ hshown).imp_right ?_
    rintro ⟨z, hz, hid, hle⟩
    exact List.inj_on_of_nodup_map hdistinct (hperm.mem_iff.mp hz) hy hid ▸ hle

/-! ## Runs of polls -/

/-- The state of a run over one fixed set of alerts. -/
structure Drained (cap : ℕ) (alerts : List Alert) (s : List Text × List (List Alert)) : Prop where
  mem : ∀ al, (∃ items ∈ s.2, al ∈ items) ↔ al ∈ alerts ∧ itemID al ∈ s.1
  closed : ∀ y ∈ alerts, itemID y ∈ s.1 → ∀ x ∈ alerts, x.startsAt < y.startsAt → itemID x ∈ s.1
  count : alerts.countP (itemID · ∉ s.1) ≤ alerts.length - s.2.length * cap

theorem Drained.poll {s : List Text × List (List Alert)} (hs : Drained cap alerts s)
    (hids : (alerts.map itemID).Nodup) {out : List Text × List Alert}
    (hout : Polled cap alerts s.1 out) : Drained cap alerts (out.1, s.2 ++ [out.2]) := by
  refine ⟨fun al => ?_, fun y hy hshown x hx hlt => ?_, ?_⟩
  · constructor
    · rintro ⟨items, hitems, hal⟩
      rcases List.mem_append.mp hitems with hitems | hitems
      · obtain ⟨halert, hid⟩ := (hs.mem al).mp ⟨items, hitems, hal⟩
        exact ⟨halert, hout.kept al halert hid⟩
      · exact (hout.mem al).mp (List.mem_singleton.mp hitems ▸ hal)
    · exact fun hshown => ⟨out.2, by simp, (hout.mem al).mpr hshown⟩
  · by_contra hwaits
    rcases hout.order hids x hx hwaits y hy hshown with hold | hle
    · exact hwaits (hout.kept x hx (hs.closed y hy hold x hx hlt))
    · omega
  · have := hout.count hids
    have := hs.count
    simp only [List.length_append, List.length_singleton, Nat.add_mul]
    omega

theorem polls_concat (a : Adapter) (rounds : List (ℕ × List Alert)) (r : ℕ × List Alert) :
    a.polls seen (rounds ++ [r]) = ((a.poll (a.polls seen rounds).1 r.1 r.2).1,
      (a.polls seen rounds).2 ++ [(a.poll (a.polls seen rounds).1 r.1 r.2).2]) := by
  rw [Adapter.polls, List.foldl_append]
  rfl

theorem drained_polls (a : Adapter) (hids : (alerts.map itemID).Nodup)
    (hnew : ∀ al ∈ alerts, itemID al ∉ seen) {rounds : List (ℕ × List Alert)}
    (hfixed : ∀ r ∈ rounds, (eligible a.minAge r.1 r.2).Perm alerts) :
    Drained a.maxNewPerPoll alerts (a.polls seen rounds) ∧
      (a.polls seen rounds).2.length = rounds.length := by
  induction rounds using List.reverseRecOn with
  | nil =>
    refine ⟨⟨?_, fun y hy h => (hnew y hy h).elim, ?_⟩, rfl⟩
    · simpa [Adapter.polls] using hnew
    · simpa [Adapter.polls] using List.countP_le_length
  | append_singleton rounds r ih =>
    obtain ⟨hs, hlength⟩ := ih fun r hr => hfixed r (List.mem_append_left _ hr)
    rw [polls_concat]
    exact ⟨hs.poll hids (a.polled _ (hfixed r (by simp))), by simp [hlength]⟩

/-- With a cap and a fixed set of eligible alerts, none of them returned before, a run
of polls drains the set from its oldest alert on.  Once returned, an alert comes back
with every poll for which it is eligible, whatever becomes of the others. -/
theorem polls_drain (a : Adapter) (hcap : 0 < a.maxNewPerPoll) (hids : (alerts.map itemID).Nodup)
    (hnew : ∀ al ∈ alerts, itemID al ∉ seen) {rounds : List (ℕ × List Alert)}
    (hfixed : ∀ r ∈ rounds, (eligible a.minAge r.1 r.2).Perm alerts) :
    let s := a.polls seen rounds
    (∀ now listing, (eligible a.minAge now listing).Perm alerts →
      let items := (a.poll s.1 now listing).2
      items.countP (fun al => ∀ earlier ∈ s.2, al ∉ earlier) ≤ a.maxNewPerPoll ∧
      OldestFirst items ∧ ∀ y ∈ items, ∀ x ∈ alerts, x.startsAt < y.startsAt → x ∈ items) ∧
    (alerts.length ⌈/⌉ a.maxNewPerPoll ≤ rounds.length →
      ∀ al ∈ alerts, ∃ items ∈ s.2, al ∈ items) ∧
    ∀ items ∈ s.2, ∀ al ∈ items, ∀ later : List (ℕ × List Alert),
      (∀ r ∈ later, al ∈ eligible a.minAge r.1 r.2) →
      ∀ now listing, al ∈ eligible a.minAge now listing →
        al ∈ (a.poll (a.polls seen (rounds ++ later)).1 now listing).2 := by
  obtain ⟨hs, hlength⟩ := drained_polls a hids hnew hfixed
  refine ⟨fun now listing hnext => ?_, fun hrounds al hal => ?_, ?_⟩
  · have hout := a.polled (a.polls seen rounds).1 hnext
    refine ⟨(List.countP_mono_left fun al hal hfirst => ?_).trans (hout.new hcap hids),
      hout.sorted, fun y hy x hx hlt => ?_⟩
    · rw [decide_eq_true_eq] at hfirst ⊢
      intro hold
      obtain ⟨earlier, hearlier, hin⟩ := (hs.mem al).mpr ⟨((hout.mem al).mp hal).1, hold⟩
      exact hfirst earlier hearlier hin
    · have hy := (hout.mem y).mp hy
      exact (hout.mem x).mpr ⟨hx, (hs.poll hids hout).closed y hy.1 hy.2 x hx hlt⟩
  · rw [ceilDiv_le_iff_le_mul hcap, mul_comm] at hrounds
    have hnone := hs.count
    rw [hlength, Nat.sub_eq_zero_of_le hrounds, Nat.le_zero, List.countP_eq_zero] at hnone
    exact (hs.mem al).mpr ⟨hal, by simpa using hnone al hal⟩
  · intro items hitems al hal later hlater now listing hnow
    have hkept : itemID al ∈ (a.polls seen (rounds ++ later)).1 := by
      induction later using List.reverseRecOn with
      | nil => simpa using ((hs.mem al).mp ⟨items, hitems, hal⟩).2
      | append_singleton later r ih =>
        rw [← List.append_assoc, polls_concat]
        exact (a.polled _ (.refl _)).kept al (hlater r (by simp))
          (ih fun r hr => hlater r (List.mem_append_left _ hr))
    have hout := a.polled (a.polls seen (rounds ++ later)).1 (.refl (eligible a.minAge now listing))
    exact (hout.mem al).mpr ⟨hnow, hout.kept al hnow hkept⟩

/-- Two alerts of one start, drained by two polls of one each. -/
theorem polls_drain_two :
    let a : Adapter := ⟨⟨0, 1⟩, fun l => l.mergeSort fun x y => x.startsAt ≤ y.startsAt,
      fun l => l.mergeSort_perm _, fun l => (l.pairwise_mergeSort
        (fun x y z => by simpa using Nat.le_trans) fun x y => by simpa using Nat.le_total ..).imp
          of_decide_eq_true⟩
    let alerts : List Alert := [⟨['a'], 0⟩, ⟨['b'], 0⟩]
    ∀ al ∈ alerts, ∃ items ∈ (a.polls [] [(0, alerts), (0, alerts.reverse)]).2, al ∈ items := by
  intro a alerts
  exact (polls_drain a (by decide) (by decide +kernel) (by simp) (by decide)).2.1 (by decide)

end Apiary.Source.Storm
