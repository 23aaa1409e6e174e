import Apiary.Core.Trim
import Apiary.Source.Groups

/-!
# One id for one fire cycle

A dispatched group should keep its id, and stay unresolved, for as long as one of its
members fires.  The id rests on the pin.  A check never drops a pin and a poll keeps
the pin of every group it lists, so the id holds as long as each poll still lists the
group.  It is lost when a poll lists none of its members, because they were silenced
meanwhile or no longer pass the filters: the poll drops the pin, and the group is
pinned anew from the members it has by then.

Two groups get two ids when their keys can be read back, which needs receivers and
labels free of the letters the key is joined with.
-/

namespace Apiary.Source

open List Option Machine Watch

variable {a b : List (Text × Text)} {g : AlertGroup} {now : ℕ} {item : Item} {id : Text}
  {groups : List AlertGroup} {name : GroupName}

/-! ## Reading an id back -/

theorem not_mem_padded {c : Char} (hc : c.isDigit = false) (width n : ℕ) : c ∉ padded width n := by
  intro hmem
  rw [padded, List.leftpad, mem_append, mem_replicate] at hmem
  have hdigit : c.isDigit = true := by
    rcases hmem with ⟨-, rfl⟩ | hmem
    · rfl
    · exact Nat.isDigit_of_mem_toDigits (by decide) (by decide) hmem
  simp [hdigit] at hc

theorem not_mem_rfc3339 (time : ℕ) : '\x7d' ∉ rfc3339 time := by
  have hpadded : ∀ width n, '\x7d' ∉ padded width n := not_mem_padded (by decide)
  simp [rfc3339, hpadded]

/-- The letters that join a key do not occur where they would be taken for a joint. -/
def GroupName.Plain (name : GroupName) : Prop :=
  '\x7b' ∉ name.receiver ∧ ∀ label ∈ name.labels, '=' ∉ label.1 ∧ ',' ∉ label.1 ∧ ',' ∉ label.2

instance (name : GroupName) : Decidable name.Plain :=
  inferInstanceAs (Decidable (_ ∧ ∀ label ∈ name.labels, _ ∧ _ ∧ _))

theorem labelPart_inj {a b : Text × Text} (ha : '=' ∉ a.1) (hb : '=' ∉ b.1)
    (heq : labelPart a = labelPart b) : a = b := by
  have hparts := append_cons_inj ha hb heq
  exact Prod.ext hparts.1 hparts.2

theorem labelParts_inj (ha : ∀ label ∈ a, '=' ∉ label.1) (hb : ∀ label ∈ b, '=' ∉ label.1)
    (heq : a.map labelPart = b.map labelPart) : a = b := by
  induction a generalizing b with
  | nil => simpa using heq.symm
  | cons label a ih =>
    cases b with
    | nil => simp at heq
    | cons =>
      rw [forall_mem_cons] at ha hb
      rw [map_cons, map_cons, List.cons.injEq] at heq
      rw [labelPart_inj ha.1 hb.1 heq.1, ih ha.2 hb.2 heq.2]

/-- Joined labels are read back by splitting at the commas.  Without labels nothing
is joined, which no label gives since each holds an equals sign. -/
theorem joined_inj (ha : ∀ label ∈ a, '=' ∉ label.1 ∧ ',' ∉ label.1 ∧ ',' ∉ label.2)
    (hb : ∀ label ∈ b, '=' ∉ label.1 ∧ ',' ∉ label.1 ∧ ',' ∉ label.2)
    (heq : [','].intercalate (a.map labelPart) = [','].intercalate (b.map labelPart)) : a = b := by
  have hsplit : ∀ labels : List (Text × Text), labels ≠ [] →
      (∀ label ∈ labels, '=' ∉ label.1 ∧ ',' ∉ label.1 ∧ ',' ∉ label.2) →
      ([','].intercalate (labels.map labelPart)).splitOn ',' = labels.map labelPart := by
    intro labels hne hlabels
    apply splitOn_intercalate
    · intro part hpart
      obtain ⟨label, hlabel, rfl⟩ := List.mem_map.mp hpart
      have hcommas := (hlabels label hlabel).2
      simp [labelPart, hcommas]
    · simpa using hne
  have hempty : ∀ labels : List (Text × Text),
      [','].intercalate (labels.map labelPart) = [] → labels = [] := by
    intro labels hjoined
    cases labels with
    | nil => rfl
    | cons label rest => cases rest <;> simp [List.intercalate, labelPart] at hjoined
  by_cases hnil : a = [] ∨ b = []
  · rcases hnil with rfl | rfl
    · exact (hempty b (by simpa using heq.symm)).symm
    · exact hempty a (by simpa using heq)
  · rw [not_or] at hnil
    have hparts : a.map labelPart = b.map labelPart := by
      rw [← hsplit a hnil.1 ha, ← hsplit b hnil.2 hb, heq]
    exact labelParts_inj (fun label hlabel => (ha label hlabel).1)
      (fun label hlabel => (hb label hlabel).1) hparts

/-- The receiver ends at the first opening brace and the labels at the last closing
one, so that a plain name is read back from every id that was made of it. -/
theorem groupItemID_inj {a b : GroupName} {e f : ℕ} (ha : a.Plain) (hb : b.Plain)
    (heq : groupItemID (groupKey a) e = groupItemID (groupKey b) f) : a = b := by
  have hid : ∀ (name : GroupName) (epoch : ℕ), groupItemID (groupKey name) epoch =
      (name.receiver ++ ['/']) ++ '\x7b' ::
        ([','].intercalate (name.labels.map labelPart) ++ '\x7d' :: ':' :: rfc3339 epoch) := by
    intro name epoch
    simp [groupItemID, groupKey]
  have hreceiver : ∀ name : GroupName, name.Plain → '\x7b' ∉ name.receiver ++ ['/'] := by
    intro name hname
    simp [hname.1]
  rw [hid, hid] at heq
  have hfirst := append_cons_inj (hreceiver a ha) (hreceiver b hb) heq
  have hlast := append_cons_inj_last (by simp [not_mem_rfc3339]) (by simp [not_mem_rfc3339])
    hfirst.2
  have hlabels := joined_inj ha.2 hb.2 hlast.1
  cases a
  cases b
  simp_all

theorem groupKey_inj {a b : GroupName} (ha : a.Plain) (hb : b.Plain)
    (heq : groupKey a = groupKey b) : a = b := by
  apply groupItemID_inj (e := 0) (f := 0) ha hb
  rw [heq]

/-! ## What a scan does to the pins -/

theorem epochFor_snd (pins : Pins) (key : Text) (members : List Alert) :
    (epochFor pins key members).2 = (pins key).getD (earliestStart members) := by
  unfold epochFor
  cases hpin : pins key <;> rfl

theorem epochFor_fst (pins : Pins) (key : Text) (members : List Alert) :
    (epochFor pins key members).1 =
      Function.update pins key (some ((pins key).getD (earliestStart members))) := by
  unfold epochFor
  cases hpin : pins key with
  | none => rfl
  | some =>
    have hself := Function.update_eq_self key pins
    rw [hpin] at hself
    exact hself.symm

section Scan

variable {now : ℕ} {pins : Pins} {listing : List AlertGroup}

theorem scan_cons_idle (hidle : firingMembers now g.alerts = []) :
    scan now pins (g :: listing) = scan now pins listing := by
  simp [scan, hidle]

theorem scan_cons_firing (hfiring : firingMembers now g.alerts ≠ []) :
    scan now pins (g :: listing) =
      let found := epochFor pins (groupKey g.name) (firingMembers now g.alerts)
      ((scan now found.1 listing).1, ⟨g.name, found.2⟩ :: (scan now found.1 listing).2) := by
  simp [scan, hfiring]

theorem scan_kept {key : Text} {epoch : ℕ} (hpin : pins key = some epoch) :
    (scan now pins listing).1 key = some epoch := by
  induction listing generalizing pins with
  | nil => exact hpin
  | cons g listing ih =>
    by_cases hidle : firingMembers now g.alerts = []
    · rw [scan_cons_idle hidle]
      exact ih hpin
    · rw [scan_cons_firing hidle]
      apply ih
      rw [epochFor_fst, Function.update_apply]
      split
      · next heq => simp [← heq, hpin]
      · exact hpin

theorem scan_pins {key : Text} {epoch : ℕ} (hpin : (scan now pins listing).1 key = some epoch) :
    pins key = some epoch ∨
      pins key = none ∧ ∃ g ∈ listing, groupKey g.name = key ∧ firingMembers now g.alerts ≠ [] ∧
        earliestStart (firingMembers now g.alerts) = epoch := by
  induction listing generalizing pins with
  | nil => exact Or.inl hpin
  | cons g listing ih =>
    by_cases hidle : firingMembers now g.alerts = []
    · rw [scan_cons_idle hidle] at hpin
      apply (ih hpin).imp_right
      rintro ⟨hnone, g', hg', hrest⟩
      exact ⟨hnone, g', mem_cons_of_mem g hg', hrest⟩
    · rw [scan_cons_firing hidle] at hpin
      have hcases := ih hpin
      rw [epochFor_fst, Function.update_apply] at hcases
      by_cases hkey : key = groupKey g.name
      · -- the group pins its own key, unless it is pinned already
        rw [if_pos hkey] at hcases
        rcases hcases with hown | ⟨hnone, -⟩
        · rw [some.injEq] at hown
          cases hbefore : pins key with
          | some =>
            left
            rw [← hkey, hbefore, getD_some] at hown
            rw [hown]
          | none =>
            right
            rw [← hkey, hbefore, getD_none] at hown
            exact ⟨rfl, g, mem_cons_self, hkey.symm, hidle, hown⟩
        · simp at hnone
      · rw [if_neg hkey] at hcases
        apply hcases.imp_right
        rintro ⟨hnone, g', hg', hrest⟩
        exact ⟨hnone, g', mem_cons_of_mem g hg', hrest⟩

theorem scan_candidate {c : Candidate} (hc : c ∈ (scan now pins listing).2) :
    (scan now pins listing).1 (groupKey c.name) = some c.epoch ∧
      ∃ g ∈ listing, g.name = c.name ∧ firingMembers now g.alerts ≠ [] := by
  induction listing generalizing pins with
  | nil => simp [scan] at hc
  | cons g listing ih =>
    by_cases hidle : firingMembers now g.alerts = []
    · rw [scan_cons_idle hidle] at hc ⊢
      obtain ⟨hpin, g', hg', hrest⟩ := ih hc
      exact ⟨hpin, g', mem_cons_of_mem g hg', hrest⟩
    · rw [scan_cons_firing hidle] at hc ⊢
      rcases mem_cons.mp hc with rfl | hc
      · refine ⟨scan_kept ?_, g, mem_cons_self, rfl, hidle⟩
        simp [epochFor_fst, epochFor_snd]
      · obtain ⟨hpin, g', hg', hrest⟩ := ih hc
        exact ⟨hpin, g', mem_cons_of_mem g hg', hrest⟩

theorem scan_lists (hg : g ∈ listing) (hfiring : firingMembers now g.alerts ≠ []) :
    ∃ c ∈ (scan now pins listing).2, c.name = g.name := by
  induction listing generalizing pins with
  | nil => simp at hg
  | cons g' listing ih =>
    by_cases hidle : firingMembers now g'.alerts = []
    · rw [scan_cons_idle hidle]
      rcases mem_cons.mp hg with rfl | hg
      · exact absurd hidle hfiring
      · exact ih hg
    · rw [scan_cons_firing hidle]
      rcases mem_cons.mp hg with rfl | hg
      · exact ⟨_, mem_cons_self, rfl⟩
      · obtain ⟨c, hc, hname⟩ := ih hg
        exact ⟨c, mem_cons_of_mem _ hc, hname⟩

end Scan

/-! ## Pins that agree with the ids given out -/

/-- The pin of a running cycle, where there is one, makes the id of the cycle. -/
def Pinned (cycle : GroupName → Option Text) (pins : Pins) : Prop :=
  ∀ name, ∀ id ∈ cycle name, ∀ epoch ∈ pins (groupKey name), groupItemID (groupKey name) epoch = id

/-- A running cycle that has no pin gets the same id again from the members that are
listed. -/
def Repins (now : ℕ) (pins : Pins) (cycle : GroupName → Option Text)
    (listing : List AlertGroup) : Prop :=
  ∀ g ∈ listing, firingMembers now g.alerts ≠ [] → pins (groupKey g.name) = none →
    ∀ id ∈ cycle g.name,
      groupItemID (groupKey g.name) (earliestStart (firingMembers now g.alerts)) = id

instance (now : ℕ) (pins : Pins) (cycle : GroupName → Option Text) (listing : List AlertGroup) :
    Decidable (Repins now pins cycle listing) :=
  inferInstanceAs (Decidable (∀ g ∈ listing, _ → _ → ∀ id ∈ cycle g.name, _))

theorem Pinned.scan {pins : Pins} {cycle : GroupName → Option Text} {listing : List AlertGroup}
    (hpinned : Pinned cycle pins) (hlisting : ∀ g ∈ listing, g.name.Plain)
    (hcycle : ∀ name, ∀ id ∈ cycle name, name.Plain) (hrepins : Repins now pins cycle listing) :
    Pinned cycle (Source.scan now pins listing).1 := by
  intro name id hid epoch hepoch
  rcases scan_pins hepoch with hold | ⟨hnone, g, hg, hkey, hfiring, hstart⟩
  · exact hpinned name id hid epoch hold
  · have hname : g.name = name := groupKey_inj (hlisting g hg) (hcycle name id hid) hkey
    subst hname
    rw [← hstart]
    exact hrepins g hg hfiring hnone id hid

theorem surface_mem {cap newCount : ℕ} {seen : List Text} {cs : List Candidate}
    (hitem : item ∈ (surface cap seen newCount cs).1) : ∃ c ∈ cs, item = (c.name, c.id) := by
  induction cs generalizing seen newCount with
  | nil => simp [surface] at hitem
  | cons c cs ih =>
    have hlater : ∀ {seen newCount}, item ∈ (surface cap seen newCount cs).1 →
        ∃ c' ∈ c :: cs, item = (c'.name, c'.id) := by
      intro seen newCount hmem
      obtain ⟨c', hc', heq⟩ := ih hmem
      exact ⟨c', mem_cons_of_mem c hc', heq⟩
    have hfirst : ∀ {seen newCount}, item ∈ (c.name, c.id) :: (surface cap seen newCount cs).1 →
        ∃ c' ∈ c :: cs, item = (c'.name, c'.id) := by
      intro seen newCount hmem
      rcases mem_cons.mp hmem with heq | hmem
      · exact ⟨c, mem_cons_self, heq⟩
      · exact hlater hmem
    rw [surface] at hitem
    split at hitem
    · exact hfirst hitem
    · split at hitem
      · exact hlater hitem
      · exact hfirst hitem

/-- A check reports none of the ids it found live. -/
theorem not_live_of_confirmResolved {live itemIDs : List Text} {streak : Text → ℕ}
    (hid : id ∈ (confirmResolved live streak itemIDs).1) : id ∉ live := by
  induction itemIDs generalizing streak with
  | nil => simp [confirmResolved] at hid
  | cons first itemIDs ih =>
    rw [confirmResolved] at hid
    split at hid
    · exact ih hid
    · next hfirst =>
        split at hid
        · exact ih hid
        · rcases mem_cons.mp hid with rfl | hid
          · exact hfirst
          · exact ih hid

/-! ## Runs -/

/-- What Alertmanager lists has readable names, and a fingerprint for each alert. -/
def WellNamed (groups : List AlertGroup) : Prop :=
  ∀ g ∈ groups, g.name.Plain ∧ ∀ al ∈ g.alerts, al.fingerprint ≠ []

instance (groups : List AlertGroup) : Decidable (WellNamed groups) :=
  inferInstanceAs (Decidable (∀ g ∈ groups, _ ∧ ∀ al ∈ g.alerts, _))

/-- The last call answered as the fire cycles demand: a group is returned under the id
of its running cycle, no such id is reported resolved, and no id was ever given to two
groups. -/
structure Steady (s : Watch) : Prop where
  kept : ∀ item ∈ s.items, ∀ id ∈ s.cycle item.1, item.2 = id
  unresolved : ∀ id ∈ s.resolved, ∀ name, s.cycle name ≠ some id
  apart : ∀ a ∈ s.given, ∀ b ∈ s.given, a.2 = b.2 → a.1 = b.1

/-- The condition on a step. -/
def undisturbed (s : Watch) : WatchEvent → Prop
  | .change groups => WellNamed groups
  | .poll true _ => Repins s.now s.groupEpoch s.cycle (alertGroups s.groups)
  | .check _ true => Repins s.now s.groupEpoch s.cycle (allAlertGroups s.groups)
  | .advance _ | .poll false _ | .check _ false => True

instance (s : Watch) (e : WatchEvent) : Decidable (undisturbed s e) :=
  match e with
  | .change groups => inferInstanceAs (Decidable (WellNamed groups))
  | .poll true _ => inferInstanceAs (Decidable (Repins _ _ _ _))
  | .check _ true => inferInstanceAs (Decidable (Repins _ _ _ _))
  | .advance _ | .poll false _ | .check _ false => isTrue trivial

/-- What every call leaves behind.  The running cycles are cycles of firing groups. -/
structure WatchOk (s : Watch) : Prop where
  named : WellNamed s.groups
  firing : ∀ name, ∀ id ∈ s.cycle name, hasFiring s.now s.groups name = true
  pinned : Pinned s.cycle s.groupEpoch
  given : ∀ item ∈ s.given, item.1.Plain ∧ ∃ epoch, item.2 = groupItemID (groupKey item.1) epoch

theorem hasFiring_iff : hasFiring now groups name = true ↔
      ∃ g ∈ groups, g.name = name ∧ ∃ al ∈ g.alerts, al.firing now = true := by
  simp [hasFiring]

theorem firingMembers_ne_nil_iff {alerts : List Alert} : firingMembers now alerts ≠ [] ↔
      ∃ al ∈ alerts, al.fingerprint ≠ [] ∧ al.firing now = true := by
  simp [firingMembers, filter_eq_nil_iff]

/-- A poll lists a group only with alerts that Alertmanager holds for it. -/
theorem mem_alertGroups (hg : g ∈ alertGroups groups) :
    ∃ g' ∈ groups, g'.name = g.name ∧ ∀ al ∈ g.alerts, al ∈ g'.alerts := by
  obtain ⟨g', hg', rfl⟩ := List.mem_map.mp hg
  exact ⟨g', hg', rfl, fun al hal => mem_of_mem_filter hal⟩

section Steps

variable {settings : Settings} {ties : GroupName → ℕ} {s : Watch}

variable (hs : WatchOk s)

include hs

theorem WatchOk.apart : ∀ a ∈ s.given, ∀ b ∈ s.given, a.2 = b.2 → a.1 = b.1 := by
  intro a ha b hb heq
  obtain ⟨hplain, e, he⟩ := hs.given a ha
  obtain ⟨hplain', f, hf⟩ := hs.given b hb
  exact groupItemID_inj hplain hplain' (he.symm.trans (heq.trans hf))

theorem WatchOk.plain : ∀ name, ∀ id ∈ s.cycle name, name.Plain := by
  intro name id hid
  obtain ⟨g, hg, rfl, -⟩ := hasFiring_iff.mp (hs.firing name id hid)
  exact (hs.named g hg).1

theorem WatchOk.steady_of_quiet (hitems : s.items = []) (hresolved : s.resolved = []) :
    Steady s where
  kept := by simp [hitems]
  unresolved := by simp [hresolved]
  apart := hs.apart

omit hs in
theorem cycle_moveTo (hid : id ∈ (s.moveTo now groups).cycle name) :
    hasFiring now groups name = true ∧ s.cycle name = some id := by
  simpa [moveTo] using hid

theorem WatchOk.moveTo (now : ℕ) (hnamed : WellNamed groups) : WatchOk (s.moveTo now groups) where
  named := hnamed
  firing := fun _ _ hid => (cycle_moveTo hid).1
  pinned := fun name id hid => hs.pinned name id (cycle_moveTo hid).2
  given := hs.given

theorem WatchOk.quiet : WatchOk { s with items := [], resolved := [] } where
  named := hs.named
  firing := hs.firing
  pinned := hs.pinned
  given := hs.given

/-! ### Polls -/

omit hs in
theorem items_pollGroups (hitem : item ∈ (s.pollGroups settings ties).items) :
    ∃ c ∈ (scan s.now s.groupEpoch (alertGroups s.groups)).2, item = (c.name, c.id) := by
  obtain ⟨c, hc, heq⟩ := surface_mem hitem
  rw [oldestFirst, mem_insertionSort] at hc
  exact ⟨c, mem_of_mem_filter hc, heq⟩

section

variable (hrepins : Repins s.now s.groupEpoch s.cycle (alertGroups s.groups))

include hrepins

theorem WatchOk.scan_poll : Pinned s.cycle (scan s.now s.groupEpoch (alertGroups s.groups)).1 := by
  apply hs.pinned.scan _ hs.plain hrepins
  intro g hg
  obtain ⟨g', hg', hname, -⟩ := mem_alertGroups hg
  exact hname ▸ (hs.named g' hg').1

omit hs hrepins in
/-- The cycles after a poll: those that ran before and those it opened. -/
theorem cycle_pollGroups (hid : id ∈ (s.pollGroups settings ties).cycle name) :
    s.cycle name = some id ∨ (name, id) ∈ (s.pollGroups settings ties).items := by
  change (s.cycle name).or _ = some id at hid
  rw [or_eq_some_iff] at hid
  apply hid.imp_right
  rintro ⟨-, hfound⟩
  obtain ⟨item, hitem, rfl⟩ := map_eq_some_iff.mp hfound
  have hname := find?_some hitem
  rw [decide_eq_true_eq] at hname
  subst hname
  exact mem_of_find?_eq_some hitem

/-- The scan's pins agree with the cycles it opens too, since their ids were made of
these pins. -/
theorem WatchOk.pinned_pollGroups :
    Pinned (s.pollGroups settings ties).cycle
      (scan s.now s.groupEpoch (alertGroups s.groups)).1 := by
  intro name id hid epoch hepoch
  rcases cycle_pollGroups hid with hold | hnew
  · exact hs.scan_poll hrepins name id hold epoch hepoch
  · obtain ⟨c, hc, heq⟩ := items_pollGroups hnew
    obtain ⟨rfl, rfl⟩ := Prod.mk.injEq .. ▸ heq
    have hpin := (scan_candidate hc).1
    rw [mem_def, hpin, some.injEq] at hepoch
    rw [Candidate.id, hepoch]

omit hs hrepins in
theorem firing_of_items (hitem : item ∈ (s.pollGroups settings ties).items) :
    hasFiring s.now s.groups item.1 = true := by
  obtain ⟨c, hc, rfl⟩ := items_pollGroups hitem
  obtain ⟨-, g, hg, hname, hmembers⟩ := scan_candidate hc
  obtain ⟨al, hal, -, hfiring⟩ := firingMembers_ne_nil_iff.mp hmembers
  obtain ⟨g', hg', hname', hsub⟩ := mem_alertGroups hg
  exact hasFiring_iff.mpr ⟨g', hg', hname'.trans hname, al, hsub al hal, hfiring⟩

theorem WatchOk.pollGroups : WatchOk (s.pollGroups settings ties) where
  named := hs.named
  firing := by
    intro name id hid
    rcases cycle_pollGroups hid with hold | hnew
    · exact hs.firing name id hold
    · exact firing_of_items hnew
  pinned := by
    intro name id hid epoch hepoch
    apply hs.pinned_pollGroups hrepins name id hid
    -- the pins that the poll drops need nothing
    change (if _ then _ else none) = some epoch at hepoch
    split at hepoch
    · exact hepoch
    · simp at hepoch
  given := by
    intro item hitem
    rcases mem_append.mp hitem with hold | hnew
    · exact hs.given item hold
    · obtain ⟨g, hg, hname, -⟩ := hasFiring_iff.mp (firing_of_items hnew)
      obtain ⟨c, -, rfl⟩ := items_pollGroups hnew
      exact ⟨hname ▸ (hs.named g hg).1, c.epoch, rfl⟩

theorem WatchOk.steady_pollGroups : Steady (s.pollGroups settings ties) where
  kept := by
    intro item hitem id hid
    obtain ⟨c, hc, rfl⟩ := items_pollGroups hitem
    exact hs.pinned_pollGroups hrepins c.name id hid c.epoch (scan_candidate hc).1
  unresolved := by
    intro id hid
    simp [Watch.pollGroups] at hid
  apart := (hs.pollGroups hrepins).apart

end

/-! ### Resolution checks -/

section

variable (hrepins : Repins s.now s.groupEpoch s.cycle (allAlertGroups s.groups))

include hrepins

theorem WatchOk.scan_check : Pinned s.cycle (scan s.now s.groupEpoch (allAlertGroups s.groups)).1 :=
  hs.pinned.scan (fun g hg => (hs.named g hg).1) hs.plain hrepins

theorem WatchOk.live_of_cycle (hid : s.cycle name = some id) :
    id ∈ (scan s.now s.groupEpoch (allAlertGroups s.groups)).2.map Candidate.id := by
  obtain ⟨g, hg, rfl, al, hal, hfiring⟩ := hasFiring_iff.mp (hs.firing name id hid)
  have hmembers : firingMembers s.now g.alerts ≠ [] :=
    firingMembers_ne_nil_iff.mpr ⟨al, hal, (hs.named g hg).2 al hal, hfiring⟩
  have hlisted : ∃ c ∈ (scan s.now s.groupEpoch (allAlertGroups s.groups)).2, c.name = g.name :=
    scan_lists hg hmembers
  obtain ⟨c, hc, hname⟩ := hlisted
  apply List.mem_map.mpr ⟨c, hc, _⟩
  apply hs.scan_check hrepins
  · rw [hname]
    exact hid
  · exact (scan_candidate hc).1

theorem WatchOk.resolvedItems (itemIDs : List Text) : WatchOk (s.resolvedItems itemIDs) := by
  unfold Watch.resolvedItems
  split
  · exact hs.quiet
  · exact
      { named := hs.named
        firing := hs.firing
        pinned := hs.scan_check hrepins
        given := hs.given }

theorem WatchOk.steady_resolvedItems (itemIDs : List Text) : Steady (s.resolvedItems itemIDs) := by
  by_cases hasked : itemIDs = []
  · rw [Watch.resolvedItems, if_pos hasked]
    exact hs.quiet.steady_of_quiet rfl rfl
  · rw [Watch.resolvedItems, if_neg hasked]
    refine ⟨by simp, ?_, hs.apart⟩
    intro id hreported name hid
    exact not_live_of_confirmResolved hreported (hs.live_of_cycle hrepins hid)

end

/-! ### Every event -/

theorem WatchOk.step {e : WatchEvent} {s' : Watch} (hguard : undisturbed s e)
    (hstep : watchStep settings s e = some s') : WatchOk s' ∧ Steady s' := by
  cases e with
  | change =>
    cases hstep
    have hmoved := hs.moveTo s.now hguard
    exact ⟨hmoved, hmoved.steady_of_quiet rfl rfl⟩
  | advance time =>
    simp only [watchStep, ite_none_right_eq_some, some.injEq] at hstep
    obtain ⟨-, rfl⟩ := hstep
    have hmoved := hs.moveTo time hs.named
    exact ⟨hmoved, hmoved.steady_of_quiet rfl rfl⟩
  | poll fetched ties =>
    cases fetched with
    | true =>
      cases hstep
      exact ⟨hs.pollGroups hguard, hs.steady_pollGroups hguard⟩
    | false =>
      cases hstep
      exact ⟨hs.quiet, hs.quiet.steady_of_quiet rfl rfl⟩
  | check itemIDs fetched =>
    cases fetched with
    | true =>
      cases hstep
      exact ⟨hs.resolvedItems hguard itemIDs, hs.steady_resolvedItems hguard itemIDs⟩
    | false =>
      cases hstep
      exact ⟨hs.quiet, hs.quiet.steady_of_quiet rfl rfl⟩

end Steps

theorem WatchOk.connected (now : ℕ) : WatchOk (connected now) where
  named := by simp [WellNamed, Watch.connected]
  firing := by simp [Watch.connected]
  pinned := by simp [Pinned, Watch.connected]
  given := by simp [Watch.connected]

/-- In every run whose steps are undisturbed, every call is steady. -/
theorem cycles_steady {settings : Settings} {now : ℕ} {events : List WatchEvent} {t : Watch}
    (hguard : Machine.Guarded (watchStep settings) undisturbed (connected now) events)
    (hrun : exec (watchStep settings) (connected now) events = some t) :
    Steady t := by
  have hstart : WatchOk (connected now) ∧ Steady (connected now) :=
    ⟨WatchOk.connected now, (WatchOk.connected now).steady_of_quiet rfl rfl⟩
  have hstep : ∀ s e s', WatchOk s ∧ Steady s → undisturbed s e →
      watchStep settings s e = some s' → WatchOk s' ∧ Steady s' :=
    fun s e s' hs hsafe hnext => hs.1.step hsafe hnext
  exact (exec_invariant hstep hstart hguard hrun).2

/-! ### An incident that is acknowledged -/

section Incident

def database : GroupName where
  receiver := "oncall".toList
  labels := [("alertname".toList, "Down".toList)]
  ordered := by decide

def member (fingerprint : Char) (startsAt : ℕ) (suppressed : Bool) : Alert :=
  ⟨[fingerprint], startsAt, 0, suppressed, true⟩

def tenOClock : ℕ := 63897415200000000000
def fiveMinutes : ℕ := 300000000000

def dispatched : Text := groupItemID (groupKey database) tenOClock

/-- The group with the alerts of 10:00 and 10:05, or with the later one alone. -/
def both (suppressed : Bool) : List AlertGroup :=
  [⟨database, [member 'a' tenOClock suppressed, member 'b' (tenOClock + fiveMinutes) suppressed]⟩]

def later (suppressed : Bool) : List AlertGroup :=
  [⟨database, [member 'b' (tenOClock + fiveMinutes) suppressed]⟩]

def afterTen : Watch := connected (tenOClock + 2 * fiveMinutes)

def quickStart : Settings := ⟨0, 0⟩

/-- While a poll lists the group, the older alert may resolve: the id stays. -/
theorem churn_keeps_id : let events := [.change (both false), .poll true, .change (later false),
      .check [dispatched] true, .poll true]
    Machine.Guarded (watchStep quickStart) undisturbed afterTen events ∧
      ∃ t, exec (watchStep quickStart) afterTen events = some t ∧
        t.items = [(database, dispatched)] ∧ Steady t := by
  intro events
  have hguard : Machine.Guarded (watchStep quickStart) undisturbed afterTen events := by
    decide +kernel
  refine ⟨hguard, _, exec_get (by decide +kernel), by decide +kernel, ?_⟩
  exact cycles_steady hguard (exec_get _)

def pathAndZone (path zone : Text) : GroupName where
  receiver := "oncall".toList
  labels := [("path".toList, path), ("zone".toList, zone)]
  ordered := pairwise_pair.mpr (show "path".toList < "zone".toList by decide)

/-- The acknowledgement silences both alerts, the next poll drops the pin and the older
alert resolves.  Two checks later the dispatched id is reported resolved, with the
later alert firing all the time.  Apart from that, two groups of one receiver with
different labels share a key. -/
theorem acknowledged_reported_resolved :
    let events := [.change (both false), .poll true, .change (both true),
      .check [dispatched] true, .poll true, .change (later true), .check [dispatched] true,
      .poll true, .check [dispatched] true]
    (∃ t, exec (watchStep quickStart) afterTen events = some t ∧
      t.cycle database = some dispatched ∧ t.resolved = [dispatched] ∧ ¬ Steady t) ∧
    pathAndZone "/a,zone=b".toList "c".toList ≠ pathAndZone "/a".toList "b,zone=c".toList ∧
      ∀ epoch, groupItemID (groupKey (pathAndZone "/a,zone=b".toList "c".toList)) epoch =
        groupItemID (groupKey (pathAndZone "/a".toList "b,zone=c".toList)) epoch := by
  intro events
  refine ⟨⟨_, exec_get (by decide +kernel), by decide +kernel, by decide +kernel, fun hsteady => ?_⟩,
    by decide +kernel, fun epoch => ?_⟩
  · exact hsteady.unresolved dispatched (by decide +kernel) database (by decide +kernel)
  · have hkey : groupKey (pathAndZone "/a,zone=b".toList "c".toList) =
        groupKey (pathAndZone "/a".toList "b,zone=c".toList) := by decide +kernel
    rw [hkey]

end Incident

end Apiary.Source
