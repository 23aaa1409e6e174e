import Apiary.Core.Machine
import Apiary.Core.Table

/-!
# Pull request events

Events are polled from a watermark on, with an overlap behind it, and routed one by one.
A pair of an event and a workflow is dispatched by whoever inserts its claim.  When the
store fails for one event, the event is skipped for this poll and the watermark moves on
all the same: what brings the event back is the overlap alone.

One source is followed, whose polls never overlap; the tables are keyed by the source.
Times are in seconds.
-/

namespace Apiary.PREvents

open List Option Machine

variable {m : Route} {answers : ℕ → Answer} {mark : ℕ} {e : SourceEvent} {related : Bool} {p : Poll}
  {ev : FeedEvent}

/-! ## The feed -/

def prEventOverlap : ℕ := 120

/-- An event trigger; a budget of `0` is none. -/
structure Route where
  id : String
  maxDispatches : ℕ := 0

structure SourceEvent where
  id : String
  prNumber : ℕ
  submittedAt : ℕ

/-- A row of `pr_event_dispatches`. -/
structure Claim where
  event : String
  workflow : String
  prNumber : ℕ

structure Poll where
  start : ℕ
  /-- The watermark as it was read. -/
  mark : ℕ
  /-- The fetched events that are still to be routed. -/
  pending : Option (List SourceEvent) := none

structure Feed where
  now : ℕ := 0
  watermark : Option ℕ := none
  /-- The events that the source lists. -/
  events : List SourceEvent := []
  claims : List Claim := []
  /-- The events and workflows that were dispatched. -/
  dispatched : List (String × String) := []
  poll : Option Poll := none

/-- A poll from the watermark `mark` on asks for the event. -/
def asksFor (mark : ℕ) (e : SourceEvent) : Bool := mark < e.submittedAt + prEventOverlap

def Feed.claimed (s : Feed) (event workflow : String) : Bool :=
  s.claims.any fun c => c.event = event && c.workflow = workflow

/-- `CountPREventDispatches`. -/
def Feed.spent (s : Feed) (workflow : String) (prNumber : ℕ) : ℕ :=
  s.claims.countP fun c => c.workflow = workflow && c.prNumber = prNumber

def Feed.overBudget (s : Feed) (e : SourceEvent) (m : Route) : Bool :=
  m.maxDispatches ≠ 0 && m.maxDispatches ≤ s.spent m.id e.prNumber

/-- `INSERT OR IGNORE`. -/
def Feed.insertClaim (s : Feed) (e : SourceEvent) (m : Route) : Feed :=
  if s.claimed e.id m.id then s
  else
    { s with claims := s.claims ++ [{ event := e.id, workflow := m.id, prNumber := e.prNumber }] }

/-! ## Steps of a poll -/

inductive ClaimAnswer where
  | answered
  | failed
  /-- The row is in, but the count of affected rows could not be read. -/
  | unread
  deriving DecidableEq

/-- What the store answers for one match. -/
structure Answer where
  counted : Bool := true
  claim : ClaimAnswer := .answered

/-- One pass of the loop in `routePREvent`. -/
def Feed.routeMatch (s : Feed) (e : SourceEvent) (m : Route) (a : Answer) : Feed :=
  if m.maxDispatches ≠ 0 && (!a.counted || s.overBudget e m) then s
  else
    match a.claim with
    | .failed => s
    | .unread => s.insertClaim e m
    | .answered =>
      if s.claimed e.id m.id then s
      else { s.insertClaim e m with dispatched := s.dispatched ++ [(e.id, m.id)] }

def Feed.routeMatches (s : Feed) (e : SourceEvent) : List (Route × ℕ) → (ℕ → Answer) → Feed
  | [], _ => s
  | (m, k) :: rest, answers => (s.routeMatch e m (answers k)).routeMatches e rest answers

inductive FeedEvent where
  | advance (seconds : ℕ)
  | appear (e : SourceEvent)
  /-- Reads the watermark, and writes it when there is none. -/
  | begin (read write : Bool)
  /-- The adapter leaves out what it cannot list. -/
  | fetch (ok : Bool) (omitted : List String)
  /-- Routes the next event; the related task is looked up first. -/
  | route (related : Bool) (answers : ℕ → Answer)
  | finish (write : Bool)
  /-- The daemon is gone, and a new one starts over. -/
  | crash

section Steps

-- the triggers an event matches when its task is found, and when it is not
variable (routeEvent : SourceEvent → Bool → List Route)

def feedStep (s : Feed) : FeedEvent → Option Feed
  | .advance seconds => some { s with now := s.now + seconds }
  | .appear e =>
    if e.submittedAt ≤ s.now && s.events.all (fun e' => e'.id ≠ e.id) then
      some { s with events := s.events ++ [e] }
    else none
  | .begin read write =>
    if s.poll.isSome then none
    else if read then
      match s.watermark with
      | none => some (if write then { s with watermark := some s.now } else s)
      | some mark => some { s with poll := some { start := s.now, mark := mark } }
    else some s
  | .fetch ok omitted =>
    s.poll.bind fun p =>
      if p.pending.isSome then none
      else if ok then
        some { s with
          poll := some { p with
            pending := some (s.events.filter fun e => asksFor p.mark e && e.id ∉ omitted) } }
      else some { s with poll := none }
  | .route related answers =>
    s.poll.bind fun p =>
      match p.pending with
      | some (e :: rest) =>
        some { s.routeMatches e (routeEvent e related).zipIdx answers with
          poll := some { p with pending := some rest } }
      | _ => none
  | .finish write =>
    s.poll.bind fun p =>
      match p.pending with
      | some [] =>
        some { s with poll := none, watermark := if write then some p.start else s.watermark }
      | _ => none
  | .crash => some { s with poll := none }

/-! ## No loss and no repetition -/

/-- Nothing is left to do for the event. -/
def Feed.settled (s : Feed) (e : SourceEvent) : Bool :=
  (routeEvent e true).all fun m => s.claimed e.id m.id || s.overBudget e m

/-- Whatever happens from here on, the event stays behind the watermark and the workflow
is never claimed for it. -/
def Feed.Lost (s : Feed) (e : SourceEvent) (m : Route) : Prop :=
  ∀ es t, exec (feedStep routeEvent) s es = some t →
    (∃ mark, t.watermark = some mark ∧ asksFor mark e = false) ∧ t.claimed e.id m.id = false

/-- No trigger loses an event that is not claimed for it and within its budget, and no pair
is dispatched twice. -/
def Feed.Safe (s : Feed) : Prop :=
  (∀ e ∈ s.events, ∀ m ∈ routeEvent e true, s.claimed e.id m.id = false →
    s.overBudget e m = false → ¬ s.Lost routeEvent e m) ∧ s.dispatched.Nodup

def Answer.isFine (a : Answer) : Bool := a.counted && a.claim ≠ .failed

/-- The store and the adapter fail only for events that the overlap brings back: those
submitted less than two minutes before the poll began.  An event is listed less than two
minutes after it was submitted, and none is waiting when the watermark is first written. -/
def inTime (s : Feed) : FeedEvent → Bool
  | .appear e => asksFor s.now e || s.settled routeEvent e
  | .begin true true =>
    s.watermark.isSome || s.events.all fun e => asksFor s.now e || s.settled routeEvent e
  | .fetch true omitted =>
    s.poll.all fun p => s.events.all fun e =>
      e.id ∉ omitted || asksFor p.start e || s.settled routeEvent e
  | .route related answers =>
    s.poll.all fun p =>
      match p.pending with
      | some (e :: _) =>
        asksFor p.start e || s.settled routeEvent e ||
          related && (routeEvent e true).zipIdx.all fun entry => (answers entry.2).isFine
      | _ => true
  | _ => true

end Steps

/-! ## Routing one event -/

section Routing

variable {s t : Feed} {e : SourceEvent}

/-- What routing leaves alone; claims are only added. -/
structure Routed (s t : Feed) : Prop where
  now : t.now = s.now
  watermark : t.watermark = s.watermark
  events : t.events = s.events
  claims : ∃ added, t.claims = s.claims ++ added

theorem Routed.refl (s : Feed) : Routed s s := ⟨rfl, rfl, rfl, [], by simp⟩

theorem Routed.trans {u : Feed} (h : Routed s t) (h' : Routed t u) : Routed s u := by
  obtain ⟨added, hadded⟩ := h.claims
  obtain ⟨more, hmore⟩ := h'.claims
  exact ⟨h'.now.trans h.now, h'.watermark.trans h.watermark, h'.events.trans h.events,
    added ++ more, by rw [hmore, hadded, append_assoc]⟩

/-- A claim, once written, stays. -/
theorem Routed.claimed (h : Routed s t) {event workflow : String}
    (hclaimed : s.claimed event workflow = true) : t.claimed event workflow = true := by
  obtain ⟨added, hadded⟩ := h.claims
  rw [Feed.claimed] at hclaimed ⊢
  rw [hadded, any_append, hclaimed]
  rfl

theorem Routed.spent_le (h : Routed s t) (workflow : String) (prNumber : ℕ) :
    s.spent workflow prNumber ≤ t.spent workflow prNumber := by
  obtain ⟨added, hadded⟩ := h.claims
  rw [Feed.spent, Feed.spent, hadded, countP_append]
  exact Nat.le_add_right _ _

theorem Routed.overBudget (h : Routed s t) (hover : s.overBudget e m = true) :
    t.overBudget e m = true := by
  have hspent := h.spent_le m.id e.prNumber
  simp only [Feed.overBudget, Bool.and_eq_true, decide_eq_true_eq] at hover ⊢
  exact ⟨hover.1, Nat.le_trans hover.2 hspent⟩

/-- The claim is in the table, or the budget is used up. -/
def Feed.handled (s : Feed) (e : SourceEvent) (m : Route) : Bool :=
  s.claimed e.id m.id || s.overBudget e m

theorem Routed.handled (h : Routed s t) (hhandled : s.handled e m = true) :
    t.handled e m = true := by
  rw [Feed.handled, Bool.or_eq_true] at hhandled ⊢
  exact hhandled.imp h.claimed h.overBudget

/-- An event that is settled stays settled whatever is routed after it. -/
theorem Routed.settled (h : Routed s t) {routeEvent : SourceEvent → Bool → List Route}
    (hsettled : s.settled routeEvent e = true) : t.settled routeEvent e = true := by
  rw [Feed.settled, List.all_eq_true] at hsettled ⊢
  intro m hm
  exact h.handled (hsettled m hm)

/-- One match either changes nothing, or adds the claim that was missing. -/
theorem routeMatch_cases (s : Feed) (e : SourceEvent) (m : Route) (a : Answer) :
    (s.routeMatch e m a = s ∧ (a.isFine = true → s.handled e m = true)) ∨
      (s.claimed e.id m.id = false ∧ ∃ dispatched, s.routeMatch e m a = { s with
            claims := s.claims ++ [{ event := e.id, workflow := m.id, prNumber := e.prNumber }]
            dispatched := dispatched } ∧
        (dispatched = s.dispatched ∨ dispatched = s.dispatched ++ [(e.id, m.id)])) := by
  rw [Feed.routeMatch]
  split
  case isTrue hskip =>
    refine .inl ⟨rfl, fun hfine => ?_⟩
    simp only [Answer.isFine, Bool.and_eq_true] at hfine
    simp only [Bool.and_eq_true, Bool.or_eq_true, hfine.1, Bool.not_true, Bool.false_eq_true,
      false_or] at hskip
    simp [Feed.handled, hskip.2]
  case isFalse =>
    cases hclaimed : s.claimed e.id m.id with
    | true =>
      refine .inl ⟨?_, fun _ => by simp [Feed.handled, hclaimed]⟩
      cases a.claim <;> simp [Feed.insertClaim, hclaimed]
    | false =>
      cases hanswer : a.claim with
      | failed => exact .inl ⟨rfl, fun hfine => by simp [Answer.isFine, hanswer] at hfine⟩
      | unread => exact .inr ⟨rfl, s.dispatched, by simp [Feed.insertClaim, hclaimed], .inl rfl⟩
      | answered =>
        exact .inr ⟨rfl, s.dispatched ++ [(e.id, m.id)], by simp [Feed.insertClaim, hclaimed],
          .inr rfl⟩

theorem routeMatch_routed (s : Feed) (e : SourceEvent) (m : Route) (a : Answer) :
    Routed s (s.routeMatch e m a) := by
  rcases routeMatch_cases s e m a with ⟨heq, -⟩ | ⟨-, dispatched, heq, -⟩
  · rw [heq]
    exact .refl s
  · rw [heq]
    exact ⟨rfl, rfl, rfl, _, rfl⟩

/-- A match that is answered without an error is handled. -/
theorem routeMatch_handled {a : Answer} (hfine : a.isFine = true) :
    (s.routeMatch e m a).handled e m = true := by
  rcases routeMatch_cases s e m a with ⟨heq, hhandled⟩ | ⟨-, dispatched, heq, -⟩
  · rw [heq]
    exact hhandled hfine
  · rw [heq]
    simp [Feed.handled, Feed.claimed]

theorem routeMatches_routed (entries : List (Route × ℕ)) (answers : ℕ → Answer) :
    Routed s (s.routeMatches e entries answers) := by
  induction entries generalizing s with
  | nil => exact .refl s
  | cons entry entries ih => exact (routeMatch_routed s e entry.1 (answers entry.2)).trans ih

/-- If every answer is fine, every match of the event is handled. -/
theorem routeMatches_handled {entries : List (Route × ℕ)}
    (hfine : ∀ entry ∈ entries, (answers entry.2).isFine = true) {entry : Route × ℕ}
    (hentry : entry ∈ entries) : (s.routeMatches e entries answers).handled e entry.1 = true := by
  induction entries generalizing s with
  | nil => cases hentry
  | cons first entries ih =>
    rcases mem_cons.mp hentry with rfl | hentry
    · exact (routeMatches_routed entries answers).handled
        (routeMatch_handled (hfine entry mem_cons_self))
    · exact ih (fun entry hentry => hfine entry (mem_cons_of_mem _ hentry)) hentry

/-- Every pair was dispatched once, by the insertion of its claim. -/
def Feed.Once (s : Feed) : Prop :=
  s.dispatched.Nodup ∧ ∀ pair ∈ s.dispatched, s.claimed pair.1 pair.2 = true

/-- The claim before the dispatch is what keeps a pair from being dispatched twice. -/
theorem Feed.Once.routeMatch (hs : s.Once) (e : SourceEvent) (m : Route) (a : Answer) :
    (s.routeMatch e m a).Once := by
  have hrouted := routeMatch_routed s e m a
  rcases routeMatch_cases s e m a with ⟨heq, -⟩ | ⟨hfresh, dispatched, heq, hdispatched⟩
  · rw [heq]
    exact hs
  · rw [heq] at hrouted ⊢
    rcases hdispatched with rfl | rfl
    · exact ⟨hs.1, fun pair hpair => hrouted.claimed (hs.2 pair hpair)⟩
    · constructor
      · change (s.dispatched ++ [(e.id, m.id)]).Nodup
        rw [← concat_eq_append]
        refine .concat (fun hpair => ?_) hs.1
        rw [hs.2 _ hpair] at hfresh
        cases hfresh
      · refine Table.forall_insert (fun pair hpair => hrouted.claimed (hs.2 pair hpair)) ?_
        simp [Feed.claimed]

theorem Feed.Once.routeMatches (hs : s.Once) (e : SourceEvent) (entries : List (Route × ℕ))
    (answers : ℕ → Answer) : (s.routeMatches e entries answers).Once := by
  induction entries generalizing s with
  | nil => exact hs
  | cons entry entries ih => exact ih (hs.routeMatch e entry.1 (answers entry.2))

end Routing

/-! ## Every poll keeps pace -/

section Pace

variable {routeEvent : SourceEvent → Bool → List Route} {s t : Feed}

/-- Every event that is not settled is asked for from the watermark on.  While a poll is
under way the same holds from its start on, for all but the events it has still to route. -/
structure FeedOk (routeEvent : SourceEvent → Bool → List Route) (s : Feed) : Prop where
  once : s.Once
  past : ∀ mark, s.watermark = some mark → mark ≤ s.now
  kept : ∀ mark, s.watermark = some mark → ∀ e ∈ s.events, s.settled routeEvent e = false →
    asksFor mark e = true
  started : ∀ p, s.poll = some p → p.start ≤ s.now ∧ s.watermark = some p.mark
  pending : ∀ p rest, s.poll = some p → p.pending = some rest → ∀ e ∈ s.events,
    s.settled routeEvent e = false → e ∈ rest ∨ asksFor p.start e = true

theorem asksFor_mono {mark' : ℕ} (hle : mark ≤ mark') (hasks : asksFor mark' e = true) :
    asksFor mark e = true := by
  simp only [asksFor, decide_eq_true_eq] at *
  omega

theorem feedOk_empty : FeedOk routeEvent {} where
  once := ⟨nodup_nil, by simp⟩
  past := by simp
  kept := by simp
  started := by simp
  pending := by simp

section Steps

variable (hs : FeedOk routeEvent s)

/-- Routing, by the answers a poll is in time with. -/
theorem settled_of_route
    (hfine : related = true ∧ (routeEvent e true).zipIdx.all
      (fun entry => (answers entry.2).isFine) = true) :
    (s.routeMatches e (routeEvent e related).zipIdx answers).settled routeEvent e = true := by
  obtain ⟨rfl, hall⟩ := hfine
  rw [Feed.settled, List.all_eq_true]
  intro m hm
  obtain ⟨k, hk⟩ := mem_iff_getElem?.mp hm
  have hentry : (m, k) ∈ (routeEvent e true).zipIdx := mem_zipIdx_iff_getElem?.mpr hk
  exact routeMatches_handled (List.all_eq_true.mp hall) hentry

include hs in
/-- An event that appears in time is not behind the watermark, or it is settled already. -/
theorem FeedOk.appeared (hguard : inTime routeEvent s (.appear e) = true) :
    FeedOk routeEvent { s with events := s.events ++ [e] } := by
  rw [inTime, Bool.or_eq_true] at hguard
  have hlate : ∀ mark, mark ≤ s.now → s.settled routeEvent e = false → asksFor mark e = true := by
    intro mark hmark hopen
    rcases hguard with hasks | hsettled
    · exact asksFor_mono hmark hasks
    · simp [hopen] at hsettled
  refine ⟨hs.once, hs.past, ?_, hs.started, ?_⟩
  · intro mark hmark
    exact Table.forall_insert (hs.kept mark hmark) (hlate mark (hs.past mark hmark))
  · intro p rest hp hrest
    refine Table.forall_insert (hs.pending p rest hp hrest) fun hopen => .inr ?_
    exact hlate p.start (hs.started p hp).1 hopen

include hs in
theorem FeedOk.baselined (hguard : inTime routeEvent s (.begin true true) = true)
    (hnone : s.watermark = none) (hidle : s.poll = none) :
    FeedOk routeEvent { s with watermark := some s.now } := by
  rw [inTime, hnone, isSome_none, Bool.false_or, List.all_eq_true] at hguard
  refine ⟨hs.once, fun mark hmark => Nat.le_of_eq (some.inj hmark).symm, ?_,
    fun p hp => (nomatch hidle.symm.trans hp), fun p rest hp => nomatch hidle.symm.trans hp⟩
  rintro _ ⟨⟩ e he hopen
  exact (Bool.or_eq_true_iff.mp (hguard e he)).resolve_right (Bool.eq_false_iff.mp hopen)

include hs in
theorem FeedOk.begun (hmark : s.watermark = some mark) :
    FeedOk routeEvent { s with poll := some { start := s.now, mark := mark } } := by
  refine ⟨hs.once, hs.past, hs.kept, ?_, ?_⟩
  · rintro _ ⟨⟩
    exact ⟨Nat.le_refl _, hmark⟩
  · rintro _ _ ⟨⟩ ⟨⟩

include hs in
/-- A fetch asks for everything from the mark on. -/
theorem FeedOk.fetched {omitted : List String} (hp : s.poll = some p)
    (hguard : inTime routeEvent s (.fetch true omitted) = true) :
    FeedOk routeEvent
      { s with
        poll := some { p with
          pending := some (s.events.filter fun e => asksFor p.mark e && e.id ∉ omitted) } } := by
  obtain ⟨hstart, hmark⟩ := hs.started p hp
  rw [inTime, hp, all_some, List.all_eq_true] at hguard
  refine ⟨hs.once, hs.past, hs.kept, ?_, ?_⟩
  · rintro _ ⟨⟩
    exact ⟨hstart, hmark⟩
  · rintro _ _ ⟨⟩ ⟨⟩ e he hopen
    have hasks := hs.kept p.mark hmark e he hopen
    have hlisted := (Bool.or_eq_true_iff.mp (hguard e he)).resolve_right (Bool.eq_false_iff.mp hopen)
    rw [Bool.or_eq_true, decide_eq_true_eq] at hlisted
    refine hlisted.imp_left fun homitted => mem_filter.mpr ⟨he, ?_⟩
    simp [hasks, homitted]

include hs in
/-- Routing settles the next pending event, or a later poll asks for it again. -/
theorem FeedOk.routed {rest : List SourceEvent} (hp : s.poll = some p)
    (hpending : p.pending = some (e :: rest))
    (hguard : inTime routeEvent s (.route related answers) = true) :
    FeedOk routeEvent
      { s.routeMatches e (routeEvent e related).zipIdx answers with
        poll := some { p with pending := some rest } } := by
  have hrouted : Routed s (s.routeMatches e (routeEvent e related).zipIdx answers) :=
    routeMatches_routed _ _
  have hstill : ∀ e', (s.routeMatches e (routeEvent e related).zipIdx answers).settled routeEvent e' =
      false → s.settled routeEvent e' = false := by
    intro e' hopen
    rw [← Bool.not_eq_true] at hopen ⊢
    exact fun hsettled => hopen (hrouted.settled hsettled)
  obtain ⟨hstart, hmark⟩ := hs.started p hp
  simp only [inTime, hp, all_some, hpending, Bool.or_eq_true, Bool.and_eq_true] at hguard
  refine ⟨hs.once.routeMatches e _ answers, ?_, ?_, ?_, ?_⟩
  · intro mark hmark'
    exact hrouted.now ▸ hs.past mark (hrouted.watermark.symm.trans hmark')
  · intro mark hmark' e' he' hopen
    exact hs.kept mark (hrouted.watermark.symm.trans hmark') e' (hrouted.events ▸ he')
      (hstill e' hopen)
  · rintro _ ⟨⟩
    exact ⟨hrouted.now ▸ hstart, hrouted.watermark.trans hmark⟩
  · rintro _ _ ⟨⟩ ⟨⟩ e' he' hopen
    have hopen' := hstill e' hopen
    rcases hs.pending p (e :: rest) hp hpending e' (hrouted.events ▸ he') hopen' with hin | hasks
    · rcases mem_cons.mp hin with rfl | hin
      · -- the routed event is settled now, or the overlap brings it back
        rcases hguard with (hasks | hsettled) | hfine
        · exact .inr hasks
        · exact nomatch hopen'.symm.trans hsettled
        · exact nomatch hopen.symm.trans (settled_of_route hfine)
      · exact .inl hin
    · exact .inr hasks

include hs in
/-- The watermark moves to the start of a poll whose events are all settled. -/
theorem FeedOk.finished (hp : s.poll = some p) (hpending : p.pending = some []) (write : Bool) :
    FeedOk routeEvent
      { s with poll := none, watermark := if write then some p.start else s.watermark } := by
  have hstart := (hs.started p hp).1
  refine ⟨hs.once, ?_, ?_, by simp, by simp⟩
  · intro mark hmark
    cases write with
    | true =>
      obtain rfl : p.start = mark := by simpa using hmark
      exact hstart
    | false => exact hs.past mark (by simpa using hmark)
  · intro mark hmark e he hopen
    cases write with
    | true =>
      obtain rfl : p.start = mark := by simpa using hmark
      rcases hs.pending p [] hp hpending e he hopen with hin | hasks
      · cases hin
      · exact hasks
    | false => exact hs.kept mark (by simpa using hmark) e he hopen

include hs in
theorem FeedOk.idle : FeedOk routeEvent { s with poll := none } :=
  ⟨hs.once, hs.past, hs.kept, by simp, by simp⟩

include hs in
/-- Every event in time keeps the invariant of the feed. -/
theorem FeedOk.step (hguard : inTime routeEvent s ev = true)
    (hstep : feedStep routeEvent s ev = some t) : FeedOk routeEvent t := by
  cases ev with
  | advance =>
    cases hstep
    refine ⟨hs.once, ?_, hs.kept, ?_, hs.pending⟩
    · intro mark hmark
      exact Nat.le_trans (hs.past mark hmark) (Nat.le_add_right _ _)
    · intro p hp
      obtain ⟨hstart, hmark⟩ := hs.started p hp
      exact ⟨Nat.le_trans hstart (Nat.le_add_right _ _), hmark⟩
  | appear =>
    obtain ⟨-, ⟨⟩⟩ := ite_none_right_eq_some.mp hstep
    exact hs.appeared hguard
  | begin read write =>
    rw [feedStep] at hstep
    split at hstep
    · cases hstep
    rename_i hidle
    rw [Bool.not_eq_true, isSome_eq_false_iff, isNone_iff_eq_none] at hidle
    cases read with
    | false =>
      cases hstep
      exact hs
    | true =>
      rw [if_pos rfl] at hstep
      split at hstep
      case h_1 hnone =>
        cases hstep
        cases write with
        | true => exact hs.baselined hguard hnone hidle
        | false => exact hs
      case h_2 mark hmark =>
        cases hstep
        exact hs.begun hmark
  | fetch ok =>
    obtain ⟨p, hp, hgo⟩ := bind_eq_some_iff.mp hstep
    split at hgo
    · cases hgo
    cases ok with
    | true =>
      cases hgo
      exact hs.fetched hp hguard
    | false =>
      cases hgo
      exact hs.idle
  | route =>
    obtain ⟨p, hp, hgo⟩ := bind_eq_some_iff.mp hstep
    split at hgo
    case h_1 e rest hpending =>
      cases hgo
      exact hs.routed hp hpending hguard
    case h_2 => cases hgo
  | finish write =>
    obtain ⟨p, hp, hgo⟩ := bind_eq_some_iff.mp hstep
    split at hgo
    case h_1 hpending =>
      cases hgo
      exact hs.finished hp hpending write
    case h_2 => cases hgo
  | crash =>
    cases hstep
    exact hs.idle

end Steps

end Pace

/-- In every run that is in time. -/
theorem events_safe_in_time {routeEvent : SourceEvent → Bool → List Route} {t : Feed}
    {es : List FeedEvent}
    (hguard : Machine.Guarded (feedStep routeEvent) (fun s ev => inTime routeEvent s ev = true) {} es)
    (hrun : exec (feedStep routeEvent) {} es = some t) : t.Safe routeEvent := by
  have ht : FeedOk routeEvent t :=
    exec_invariant (fun _ _ _ hs hguard hstep => hs.step hguard hstep) feedOk_empty hguard hrun
  refine ⟨?_, ht.once.1⟩
  intro e he m hm hunclaimed hbudget hlost
  have hopen : t.settled routeEvent e = false := by
    rw [← Bool.not_eq_true, Feed.settled, List.all_eq_true]
    intro hall
    have hhandled := hall m hm
    rw [hunclaimed, hbudget] at hhandled
    cases hhandled
  obtain ⟨⟨mark, hmark, hbehind⟩, -⟩ := hlost [] t rfl
  rw [ht.kept mark hmark e he hopen] at hbehind
  cases hbehind

/-! ## What is behind stays behind -/

section Behind

variable {routeEvent : SourceEvent → Bool → List Route} {s t : Feed} {e : SourceEvent} {m : Route}

/-- The event is behind the watermark, and no poll under way has it. -/
structure Behind (e : SourceEvent) (m : Route) (s : Feed) : Prop where
  listed : ∀ e' ∈ s.events, e'.id = e.id → e' = e
  present : e ∈ s.events
  mark : ∃ mark, s.watermark = some mark ∧ mark ≤ s.now ∧ asksFor mark e = false
  poll : ∀ p, s.poll = some p → p.start ≤ s.now ∧ asksFor p.start e = false ∧
    asksFor p.mark e = false ∧ ∀ rest, p.pending = some rest → ∀ e' ∈ rest, e'.id ≠ e.id
  unclaimed : s.claimed e.id m.id = false

theorem asksFor_false_mono {mark' : ℕ} (hle : mark ≤ mark') (hbehind : asksFor mark e = false) :
    asksFor mark' e = false := by
  simp only [asksFor, decide_eq_false_iff_not] at *
  omega

theorem claimed_routeMatches {e' : SourceEvent} (hother : e'.id ≠ e.id)
    (entries : List (Route × ℕ)) (answers : ℕ → Answer) (workflow : String) :
    (s.routeMatches e' entries answers).claimed e.id workflow = s.claimed e.id workflow := by
  induction entries generalizing s with
  | nil => rfl
  | cons entry entries ih =>
    rw [Feed.routeMatches, ih]
    rcases routeMatch_cases s e' entry.1 (answers entry.2) with ⟨heq, -⟩ | ⟨-, dispatched, heq, -⟩
    · rw [heq]
    · rw [heq]
      simp [Feed.claimed, hother]

/-- An event behind the watermark is never fetched again. -/
theorem Behind.step (hs : Behind e m s) (hstep : feedStep routeEvent s ev = some t) :
    Behind e m t := by
  obtain ⟨mark, hmark, hpast, hbehind⟩ := hs.mark
  cases ev with
  | advance =>
    cases hstep
    refine ⟨hs.listed, hs.present, ⟨mark, hmark, Nat.le_trans hpast (Nat.le_add_right _ _), hbehind⟩,
      ?_, hs.unclaimed⟩
    intro p hp
    obtain ⟨hstart, hrest⟩ := hs.poll p hp
    exact ⟨Nat.le_trans hstart (Nat.le_add_right _ _), hrest⟩
  | appear =>
    rw [feedStep] at hstep
    split at hstep
    case isTrue hnew =>
      cases hstep
      rw [Bool.and_eq_true, List.all_eq_true] at hnew
      refine ⟨Table.forall_insert hs.listed fun hid => ?_, mem_append_left _ hs.present, hs.mark,
        hs.poll, hs.unclaimed⟩
      have hfresh := hnew.2 e hs.present
      rw [decide_eq_true_eq] at hfresh
      exact absurd hid.symm hfresh
    case isFalse => cases hstep
  | begin =>
    rw [feedStep] at hstep
    split at hstep
    · cases hstep
    split at hstep
    · split at hstep
      case h_1 hnone => simp [hnone] at hmark
      case h_2 mark' hmark' =>
        cases hstep
        obtain rfl := some.inj (hmark'.symm.trans hmark)
        refine ⟨hs.listed, hs.present, hs.mark, ?_, hs.unclaimed⟩
        rintro _ ⟨⟩
        exact ⟨Nat.le_refl _, asksFor_false_mono hpast hbehind, hbehind, nofun⟩
    · exact some.inj hstep ▸ hs
  | fetch =>
    obtain ⟨p, hp, hgo⟩ := bind_eq_some_iff.mp hstep
    obtain ⟨hstart, hlate, hasked, -⟩ := hs.poll p hp
    split at hgo
    · cases hgo
    split at hgo
    · cases hgo
      refine ⟨hs.listed, hs.present, hs.mark, ?_, hs.unclaimed⟩
      rintro _ ⟨⟩
      refine ⟨hstart, hlate, hasked, ?_⟩
      rintro _ ⟨⟩ e' he' hid
      obtain ⟨hevent, hasks⟩ := mem_filter.mp he'
      obtain rfl := hs.listed e' hevent hid
      simp [hasked] at hasks
    · cases hgo
      exact ⟨hs.listed, hs.present, hs.mark, by simp, hs.unclaimed⟩
  | route related answers =>
    obtain ⟨p, hp, hgo⟩ := bind_eq_some_iff.mp hstep
    obtain ⟨hstart, hlate, hasked, hrest⟩ := hs.poll p hp
    split at hgo
    case h_1 e' rest hpending =>
      cases hgo
      have hrouted : Routed s (s.routeMatches e' (routeEvent e' related).zipIdx answers) :=
        routeMatches_routed _ _
      have hother := hrest (e' :: rest) hpending
      refine ⟨?_, ?_, ⟨mark, hrouted.watermark.trans hmark, ?_, hbehind⟩, ?_, ?_⟩
      · intro e'' he''
        exact hs.listed e'' (hrouted.events ▸ he'')
      · exact hrouted.events.symm ▸ hs.present
      · exact hrouted.now.symm ▸ hpast
      · rintro _ ⟨⟩
        refine ⟨hrouted.now.symm ▸ hstart, hlate, hasked, ?_⟩
        rintro _ ⟨⟩
        exact fun e'' he'' => hother e'' (mem_cons_of_mem _ he'')
      · exact (claimed_routeMatches (hother e' mem_cons_self) _ _ _).trans hs.unclaimed
    case h_2 => cases hgo
  | finish write =>
    obtain ⟨p, hp, hgo⟩ := bind_eq_some_iff.mp hstep
    obtain ⟨hstart, hlate, -, -⟩ := hs.poll p hp
    split at hgo
    case h_1 hpending =>
      cases hgo
      refine ⟨hs.listed, hs.present, ?_, by simp, hs.unclaimed⟩
      cases write with
      | true => exact ⟨p.start, rfl, hstart, hlate⟩
      | false => exact ⟨mark, hmark, hpast, hbehind⟩
    case h_2 => cases hgo
  | crash =>
    cases hstep
    exact ⟨hs.listed, hs.present, hs.mark, by simp, hs.unclaimed⟩

/-- The clock does not run backwards, so neither does the watermark. -/
theorem Behind.lost (hs : Behind e m s) : s.Lost routeEvent e m := by
  intro es t hrun
  have ht : Behind e m t := exec_invariant_of_step (fun _ _ _ hs hstep => hs.step hstep) hs hrun
  obtain ⟨mark, hmark, -, hbehind⟩ := ht.mark
  exact ⟨⟨mark, hmark, hbehind⟩, ht.unclaimed⟩

end Behind

/-! ## A comment on a pull request

The source is polled every five minutes. -/

def oneTrigger : SourceEvent → Bool → List Route := fun _ _ => [{ id := "address-review" }]

def reviewComment : SourceEvent := { id := "comment-1", prNumber := 7, submittedAt := 1010 }

/-- The first poll writes the watermark; the comment comes ten seconds later, and the second
poll fetches it. -/
def commentPolled (claim : ClaimAnswer) : List FeedEvent :=
  [.advance 1000, .begin true true, .advance 10, .appear reviewComment, .advance 290,
   .begin true true, .fetch true [], .route true (fun _ => { claim := claim }), .finish true]

theorem comment_dispatched_once :
    ∃ t, exec (feedStep oneTrigger) {} (commentPolled .answered) = some t ∧
      t.dispatched = [("comment-1", "address-review")] ∧ t.Safe oneTrigger := by
  refine ⟨_, exec_get (by decide +kernel), by decide +kernel, ?_⟩
  exact events_safe_in_time (by decide +kernel) (exec_get _)

/-- One failed insertion loses the comment. -/
theorem comment_lost_by_failed_claim :
    ∃ t, exec (feedStep oneTrigger) {} (commentPolled .failed) = some t ∧
      t.dispatched = [] ∧ ¬ t.Safe oneTrigger := by
  refine ⟨_, exec_get (by decide +kernel), by decide +kernel, fun hsafe => ?_⟩
  refine hsafe.1 _ mem_cons_self { id := "address-review" } (by simp [oneTrigger])
    (by decide +kernel) (by decide +kernel) (Behind.lost ⟨?_, mem_cons_self, ⟨1300, rfl, ?_⟩, ?_, ?_⟩)
  · exact fun e' he' _ => mem_singleton.mp he'
  · decide +kernel
  · exact nofun
  · decide +kernel

end Apiary.PREvents
