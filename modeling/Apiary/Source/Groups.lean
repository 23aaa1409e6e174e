import Apiary.Core.Machine
import Apiary.Core.Text
import Mathlib.Data.List.Sort
import Mathlib.Logic.Function.Basic

/-!
# Alert groups as work items

With `dispatch_by: group` the Prometheus source returns one item per Alertmanager
group.  A group has no identity of its own, so the adapter builds one: the receiver
and the group labels make a key, and the earliest start among the members seen first
is pinned under the key as the epoch of the fire cycle.  Key and epoch make the
item id.

Two calls read and write the pins.  A poll lists what is neither silenced nor
inhibited and passes the filters of the source; it drops every pin whose group it
does not list.  A resolution check lists every alert; it asks which of the running
ids still belong to a listed group.  The machine below runs both against an
Alertmanager whose alerts join, leave and are silenced between the calls.
-/

namespace Apiary.Source

/-! ## Item ids -/

/-- A number in decimal with at least `width` digits. -/
def padded (width n : ℕ) : Text := List.leftpad width '0' (Nat.toDigits 10 n)

/-- Year, month and day of the day that lies `days` days after January 1, year 1.
Years are counted from March here, so that the leap day is their last day. -/
def civil (days : ℕ) : ℕ × ℕ × ℕ :=
  let fromMarch := days + 306
  let era := fromMarch / 146097
  let dayOfEra := fromMarch % 146097
  let yearOfEra := (dayOfEra - dayOfEra / 1460 + dayOfEra / 36524 - dayOfEra / 146096) / 365
  let dayOfYear := dayOfEra - (365 * yearOfEra + yearOfEra / 4 - yearOfEra / 100)
  let shifted := (5 * dayOfYear + 2) / 153
  let month := if shifted < 10 then shifted + 3 else shifted - 9
  let year := yearOfEra + era * 400
  (if month ≤ 2 then year + 1 else year, month, dayOfYear - (153 * shifted + 2) / 5 + 1)

/-- `t.UTC().Format(time.RFC3339)`.  Times are nanoseconds since the zero time,
January 1, year 1; the format drops what is below a second. -/
def rfc3339 (time : ℕ) : Text :=
  let seconds := time / 1000000000
  let date := civil (seconds / 86400)
  padded 4 date.1 ++ '-' :: padded 2 date.2.1 ++ '-' :: padded 2 date.2.2 ++
    'T' :: padded 2 (seconds / 3600 % 24) ++ ':' :: padded 2 (seconds / 60 % 60) ++
    ':' :: padded 2 (seconds % 60) ++ ['Z']

example : rfc3339 63897422400000000000 = "2025-10-30T12:00:00Z".toList := by decide +kernel

/-- What defines an Alertmanager group: its receiver and its group labels, a map from
label names to values that is listed by name. -/
structure GroupName where
  receiver : Text
  labels : List (Text × Text)
  ordered : labels.Pairwise fun a b => a.1 < b.1
  deriving DecidableEq

def labelPart (label : Text × Text) : Text := label.1 ++ '=' :: label.2

def groupKey (name : GroupName) : Text :=
  name.receiver ++ '/' :: '\x7b' :: [','].intercalate (name.labels.map labelPart) ++ ['\x7d']

def groupItemID (key : Text) (epoch : ℕ) : Text := key ++ ':' :: rfc3339 epoch

/-! ## Alertmanager's listings -/

/-- An alert as the groups endpoint returns it.  `suppressed` is set while a silence
or an inhibition holds it back, `matched` when it passes the filters of the source;
both decide which listing shows it. -/
structure Alert where
  fingerprint : Text
  startsAt : ℕ
  endsAt : ℕ
  suppressed : Bool
  matched : Bool
  deriving DecidableEq

structure AlertGroup where
  name : GroupName
  alerts : List Alert
  deriving DecidableEq

/-- `alertGroups`: what a poll is given. -/
def alertGroups (groups : List AlertGroup) : List AlertGroup :=
  groups.map fun g => { g with alerts := g.alerts.filter fun al => !al.suppressed && al.matched }

/-- `allAlertGroups`: what a resolution check is given. -/
def allAlertGroups (groups : List AlertGroup) : List AlertGroup := groups

/-- An alert fires until its end, which is the zero time while none is known. -/
def Alert.firing (now : ℕ) (al : Alert) : Bool := al.endsAt == 0 || decide (now ≤ al.endsAt)

def firingMembers (now : ℕ) (alerts : List Alert) : List Alert :=
  alerts.filter fun al => !al.fingerprint.isEmpty && al.firing now

def earliestStart (members : List Alert) : ℕ :=
  members.foldl
    (fun earliest al => if earliest = 0 ∨ al.startsAt < earliest then al.startsAt else earliest) 0

/-! ## Pins -/

/-- The adapter's `groupEpoch` map. -/
abbrev Pins := Text → Option ℕ

/-- `epochFor`: the pins after the call and the epoch it returns. -/
def epochFor (pins : Pins) (key : Text) (members : List Alert) : Pins × ℕ :=
  match pins key with
  | some epoch => (pins, epoch)
  | none => (Function.update pins key (some (earliestStart members)), earliestStart members)

/-- A listed group with firing members, under its pinned epoch. -/
structure Candidate where
  name : GroupName
  epoch : ℕ

def Candidate.id (c : Candidate) : Text := groupItemID (groupKey c.name) c.epoch

/-- The loop that `pollGroups` and `groupLiveIDs` share: every group with a firing
member is looked up, and pinned when it is new. -/
def scan (now : ℕ) : Pins → List AlertGroup → Pins × List Candidate
  | pins, [] => (pins, [])
  | pins, g :: rest =>
    let members := firingMembers now g.alerts
    if members = [] then scan now pins rest
    else
      let found := epochFor pins (groupKey g.name) members
      let later := scan now found.1 rest
      (later.1, ⟨g.name, found.2⟩ :: later.2)

/-! ## Polls and resolution checks -/

/-- The source's settings.  A `maxNewPerPoll` of zero means no cap. -/
structure Settings where
  minAge : ℕ
  maxNewPerPoll : ℕ

abbrev Item := GroupName × Text

/-- The storm cap: of the ids not seen before at most `cap` are returned, those seen
before always.  The result holds the items and the ids seen by then. -/
def surface (cap : ℕ) : List Text → ℕ → List Candidate → List Item × List Text
  | seen, _, [] => ([], seen)
  | seen, newCount, c :: rest =>
    if c.id ∈ seen then
      let later := surface cap seen newCount rest
      ((c.name, c.id) :: later.1, later.2)
    else if 0 < cap ∧ cap ≤ newCount then surface cap seen newCount rest
    else
      let later := surface cap (c.id :: seen) (newCount + 1) rest
      ((c.name, c.id) :: later.1, later.2)

/-- How many checks in a row must miss an id before it is reported. -/
def resolveConfirmations : ℕ := 2

/-- `confirmResolved`: the ids reported and the streaks counted so far. -/
def confirmResolved (live : List Text) : (Text → ℕ) → List Text → List Text × (Text → ℕ)
  | streak, [] => ([], streak)
  | streak, id :: rest =>
    if id ∈ live then confirmResolved live (Function.update streak id 0) rest
    else
      let later := confirmResolved live (Function.update streak id (streak id + 1)) rest
      if streak id + 1 < resolveConfirmations then later else (id :: later.1, later.2)

/-- The adapter beside the Alertmanager it reads.  The last four fields are the
observer's: `cycle` holds for each group the id it was first returned under, for as
long as the group has had a firing member since; `given` holds every item ever
returned; `items` and `resolved` hold what the last call returned. -/
structure Watch where
  now : ℕ
  groups : List AlertGroup
  groupEpoch : Pins
  seen : List Text
  resolveStreak : Text → ℕ
  cycle : GroupName → Option Text
  given : List Item
  items : List Item
  resolved : List Text

/-- A group has a member that fires, silenced or not. -/
def hasFiring (now : ℕ) (groups : List AlertGroup) (name : GroupName) : Bool :=
  groups.any fun g => decide (g.name = name) && g.alerts.any (Alert.firing now)

/-- The world moves on: groups without a firing member end their cycle. -/
def Watch.moveTo (s : Watch) (now : ℕ) (groups : List AlertGroup) : Watch :=
  { s with
    now := now
    groups := groups
    cycle := fun name => if hasFiring now groups name then s.cycle name else none
    items := []
    resolved := [] }

/-- A poll that returns `items` opens the cycles of the groups it returns first. -/
def openCycles (cycle : GroupName → Option Text) (items : List Item) (name : GroupName) :
    Option Text :=
  (cycle name).or ((items.find? fun item => decide (item.1 = name)).map (·.2))

/-- Oldest first.  The sort is not stable, so what is left open goes by `ties`. -/
def oldestFirst (ties : GroupName → ℕ) (candidates : List Candidate) : List Candidate :=
  candidates.insertionSort fun a b =>
    a.epoch < b.epoch ∨ a.epoch = b.epoch ∧ ties a.name ≤ ties b.name

def Watch.pollGroups (settings : Settings) (ties : GroupName → ℕ) (s : Watch) : Watch :=
  let scanned := scan s.now s.groupEpoch (alertGroups s.groups)
  let live := scanned.2.map fun c => groupKey c.name
  let eligible := oldestFirst ties
    (scanned.2.filter fun c => decide (c.epoch + settings.minAge ≤ s.now))
  let surfaced := surface settings.maxNewPerPoll s.seen 0 eligible
  { s with
    -- a group that is not listed loses its pin, whatever the reason
    groupEpoch := fun key => if key ∈ live then scanned.1 key else none
    seen := surfaced.2.filter fun id => decide (id ∈ surfaced.1.map (·.2))
    cycle := openCycles s.cycle surfaced.1
    given := s.given ++ surfaced.1
    items := surfaced.1
    resolved := [] }

def Watch.resolvedItems (s : Watch) (itemIDs : List Text) : Watch :=
  if itemIDs = [] then { s with items := [], resolved := [] }
  else
    let scanned := scan s.now s.groupEpoch (allAlertGroups s.groups)
    let confirmed := confirmResolved (scanned.2.map Candidate.id) s.resolveStreak itemIDs
    { s with
      groupEpoch := scanned.1
      resolveStreak := fun id => if id ∈ itemIDs then confirmed.2 id else 0
      items := []
      resolved := confirmed.1 }

/-- A call whose listing could not be fetched returns an error and changes nothing. -/
inductive WatchEvent where
  | change (groups : List AlertGroup)
  | advance (time : ℕ)
  | poll (fetched : Bool) (ties : GroupName → ℕ := fun _ => 0)
  | check (itemIDs : List Text) (fetched : Bool)

def watchStep (settings : Settings) (s : Watch) : WatchEvent → Option Watch
  | .change groups => some (s.moveTo s.now groups)
  | .advance time => if s.now ≤ time then some (s.moveTo time s.groups) else none
  | .poll true ties => some (s.pollGroups settings ties)
  | .check itemIDs true => some (s.resolvedItems itemIDs)
  | .poll false _ | .check _ false => some { s with items := [], resolved := [] }

/-- The adapter as `Connect` leaves it, before Alertmanager holds anything. -/
def Watch.connected (now : ℕ) : Watch where
  now := now
  groups := []
  groupEpoch := fun _ => none
  seen := []
  resolveStreak := fun _ => 0
  cycle := fun _ => none
  given := []
  items := []
  resolved := []

end Apiary.Source
