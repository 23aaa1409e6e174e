import Apiary.Daemon.Work

/-!
# The slot of dispatched work

When exactly one delivery of the job is let through and starts its run, the slot is
given back exactly once, by the run or by the stop that cancels its reservation.
-/

namespace Apiary.Daemon

open Config Workflow Queue List Option Machine Work

variable {payload : Except String Payload} {d : Delivery} {b : Bool} {index now : ℕ}
  {instID : String} {fallbacks : String → ℕ}

/-- The slot is given back once, by the time that the work has ended. -/
def Work.ReleasedOnce (w : Work) : Prop := w.released ≤ 1 ∧ (w.ended = true → w.released = 1)

/-- The first delivery that is looked at is let through and starts its run, all others are
turned away; a job is not canceled in the queue, unless a stop cancels its reservation;
a reservation is left to its run, to a stop or to the fan-out, one of them; and the context
of a run has not ended when its completion decrements the count. -/
def carriedOut (w : Work) : WorkEvent → Bool
  | .enqueue none => w.reserved ≠ some .canceled
  | .cancelReserved => w.stage ≠ .abandoning
  | .execute index r => (admission w.payload w.reserved (0 < index) r).isOk = !w.admitted
  | .start index ok _ =>
    match w.deliveries[index]? with
    | some (.admitted true) => w.reserved = some .canceled || (w.reserved = some .queued && ok)
    | _ => ok
  | .cancel _ =>
    w.admitted || 0 < w.readers || w.reserved = some .canceled ||
      w.job.any fun j => j.state = .leased
  | .forceRestart => w.reserved ≠ some .queued
  | .engine run .settle =>
    w.runs[run]?.all fun s => s.settling ≠ .completing || s.drive.ctxErr.isNone
  | _ => true

/-- The delivery is about to start its run. -/
def Work.starts (w : Work) (index : ℕ) (reserved : Bool) : Prop :=
  w.deliveries[index]? = some (.admitted reserved)

/-- Who has a claim on the slot: a stop or the fan-out, or the run, and only one of them. -/
structure WorkOk (w : Work) : Prop where
  slots : ∀ s ∈ w.runs, SlotOk s
  share : w.owed + w.returned + w.runs.length ≤ 1
  payload : ∀ p, w.payload = .ok p → p.reserved = w.reserved.isSome
  early : w.stage ≠ .sent → w.job = none ∧ w.deliveries = [] ∧ w.admitted = false
  withdrawn : w.stage = .abandoning ∨ w.stage = .withdrawn → w.owed + w.returned = 1
  given : w.owed + w.returned = 1 →
    w.reserved = some .canceled ∨ w.stage = .abandoning ∨ w.stage = .withdrawn
  canceled : w.reserved = some .canceled → w.owed + w.returned = 1
  queued : w.reserved = some .queued → w.runs = [] ∧ w.stage ≠ .withdrawn
  unstarted : w.admitted = false → w.runs = [] ∧ ∀ d ∈ w.deliveries, d = .claimed
  starting : ∀ i b, w.starts i b → w.admitted = true ∧ w.runs = [] ∧
    (b = false → w.reserved ≠ some .queued ∧ w.reserved ≠ some .canceled)
  unique : ∀ i j b c, w.starts i b → w.starts j c → i = j
  progress : w.stage = .sent → w.admitted = true →
    (∃ i b, w.starts i b) ∨ w.owed + w.returned + w.runs.length = 1
  pending : w.stage = .sent → w.admitted = false → ∃ j, w.job = some j ∧
    (j.state = .queued ∨ w.deliveries ≠ [] ∨ 0 < w.readers ∨ w.owed + w.returned = 1)
  readers : 0 < w.readers → w.admitted = true ∨ w.reserved = some .queued ∨ w.owed + w.returned = 1

section Steps

variable {w t : Work}

theorem bind_ok {ε α β : Type} {x : Except ε α} {f : α → Except ε β} {b : β}
    (hout : x >>= f = .ok b) : ∃ a, x = .ok a ∧ f a = .ok b := by
  cases x with
  | error => cases hout
  | ok a => exact ⟨a, rfl, hout⟩

theorem decode_ok {p : Payload} (hout : decode payload = .ok p) : payload = .ok p := by
  cases payload with
  | error => cases hout
  | ok =>
    rw [decode] at hout
    obtain ⟨q, hq, hout⟩ := bind_ok hout
    cases hq
    split at hout
    · cases hout
    · exact congrArg Except.ok (Except.ok.inj hout)

/-- Only the completion of a run gives its slot back when it settles. -/
theorem settle_released {s u : StopState} {e : Engine} (hstep : StopStepped e s .settle u)
    (hsettling : s.settling ≠ .completing) : u.released = s.released := by
  cases hstep with
  | completed h => exact absurd h hsettling
  | _ => rfl

/-- Writes that are refused change nothing about the slot, but for the decrement. -/
theorem SlotOk.move {s u : StopState} {e : Engine} {ev : StopEvent} (hs : SlotOk s)
    (halive : ev = .settle → s.settling = .completing → s.drive.ctxErr = none)
    (hmove : s.move e fallbacks ev = some u) : SlotOk u := by
  cases ev with
  | settle =>
    obtain ⟨v, hsettle, rfl⟩ := map_eq_some_iff.mp hmove
    have hstep : stopStep e fallbacks s .settle = some v := hsettle
    have hstepped := stopStep_cases hstep
    have hv : SlotOk v := hs.step hstepped
    by_cases hended : s.drive.ctxErr.isSome = true
    · have hreleased : v.released = s.released := by
        refine settle_released hstepped fun hcompleting => ?_
        simp [halive rfl hcompleting] at hended
      rw [if_pos hended, ← hreleased]
      exact hv.same hv.wellFormed rfl rfl rfl rfl
    · rw [if_neg hended]
      exact hv
  | _ =>
    simp only [StopState.move] at hmove
    exact hs.step (stopStep_cases hmove)

theorem SlotOk.aborted {s : StopState} (hs : SlotOk s) (err : String) :
    SlotOk { s with drive := { s.drive with ctxErr := some err } } :=
  hs.same { hs.wellFormed with } rfl rfl rfl rfl

theorem starts_deliver {i j : ℕ} (hplain : ∀ c, d ≠ .admitted c) :
    (w.deliver i d).starts j b ↔ i ≠ j ∧ w.starts j b := by
  rw [starts, starts, deliver, getElem?_set]
  by_cases hij : i = j
  · simp only [hij, ite_true, ne_eq, not_true_eq_false, false_and, iff_false]
    split
    · simpa using hplain b
    · simp
  · simp [hij]

namespace WorkOk

open List Option

variable (hw : WorkOk w)

include hw

/-- A work item owes its slot once or not at all. -/
theorem unowed (hnot : w.owed + w.returned ≠ 1) : w.owed + w.returned = 0 := by
  have hshare := hw.share
  omega

theorem sent_of_job {j : Job} (hjob : w.job = some j) : w.stage = .sent := by
  by_contra hstage
  simp [(hw.early hstage).1] at hjob

theorem enqueue {created : Option Job} (hguard : carriedOut w (.enqueue created) = true)
    (hstep : w.enqueue created = some t) : WorkOk t := by
  unfold Work.enqueue at hstep
  split_ifs at hstep with hcounted
  obtain ⟨hjob, hdeliveries, hadmitted⟩ := hw.early (by simp [hcounted])
  obtain ⟨hruns, -⟩ := hw.unstarted hadmitted
  split at hstep
  · split at hstep
    · rename_i j hfresh
      rw [Bool.and_eq_true, decide_eq_true_eq] at hfresh
      cases hstep
      exact { hw with
        early := fun h => absurd rfl h
        withdrawn := by simp
        given := fun h => by simpa [hcounted] using hw.given h
        queued := fun h => ⟨hruns, by simp⟩
        progress := fun _ h => by simp [hadmitted] at h
        pending := fun _ _ => ⟨j, rfl, .inl hfresh.1⟩ }
    · cases hstep
  · cases hstep
    have hnone := hw.unowed fun h => by
      have hgiven := hw.given h
      simp [carriedOut] at hguard
      simp [hcounted, hguard] at hgiven
    exact { hw with
      share := by simp [hruns]; omega
      early := fun _ => ⟨hjob, hdeliveries, hadmitted⟩
      withdrawn := fun _ => by simp; omega
      given := fun _ => .inr (.inl rfl)
      canceled := fun h => by simp [carriedOut] at hguard; exact absurd h hguard
      queued := fun h => ⟨hruns, by simp⟩
      progress := by simp
      pending := by simp
      readers := fun _ => .inr (.inr (by simp; omega)) }

theorem abandon (hstep : w.abandon = some t) : WorkOk t := by
  obtain ⟨habandoning, ⟨⟩⟩ := ite_none_right_eq_some.mp hstep
  have hgiven := hw.withdrawn (.inl habandoning)
  obtain ⟨hjob, hdeliveries, hadmitted⟩ := hw.early (by simp [habandoning])
  exact { hw with
    payload := fun p hp => by simpa using hw.payload p hp
    early := fun _ => ⟨hjob, hdeliveries, hadmitted⟩
    withdrawn := fun _ => hgiven
    given := fun _ => .inr (.inr rfl)
    canceled := fun _ => hgiven
    queued := fun h => by
      cases hrow : w.reserved with
      | none => simp [hrow] at h
      | some => simp only [hrow, map_some, some.injEq] at h; split at h <;> simp_all
    starting := fun i b h => by simp [starts, hdeliveries] at h
    progress := by simp
    pending := by simp
    readers := fun _ => .inr (.inr hgiven) }

theorem claim (hstep : w.claim = some t) : WorkOk t := by
  obtain ⟨j, hjob, hstep⟩ := bind_eq_some_iff.mp hstep
  obtain ⟨-, ⟨⟩⟩ := ite_none_right_eq_some.mp hstep
  have hsent := hw.sent_of_job hjob
  have hstarts : ∀ i b, starts { w with
      job := some { j with state := .leased, attemptCount := j.attemptCount + 1 }
      deliveries := w.deliveries ++ [.claimed] } i b → w.starts i b := by
    intro i b h
    rw [starts, getElem?_append] at h
    split at h
    · exact h
    · cases hi : i - w.deliveries.length <;> simp [hi] at h
  exact { hw with
    early := fun h => absurd hsent h
    unstarted := fun h => ⟨(hw.unstarted h).1, Table.forall_insert (hw.unstarted h).2 rfl⟩
    starting := fun i b h => hw.starting i b (hstarts i b h)
    unique := fun i k b c hi hk => hw.unique i k b c (hstarts i b hi) (hstarts k c hk)
    progress := fun hs h => by
      rcases hw.progress hs h with ⟨i, b, hi⟩ | hone
      · refine .inl ⟨i, b, ?_⟩
        have hlt := (List.getElem?_eq_some_iff.mp hi).1
        rw [starts, getElem?_append_left hlt]
        exact hi
      · exact .inr hone
    pending := fun _ _ => ⟨_, rfl, by simp⟩ }

/-- A delivery that is not about to start a run goes on. -/
theorem moved (hadmitted : w.admitted = true) (hother : ∀ b, ¬ w.starts index b)
    (hplain : ∀ c, d ≠ .admitted c) : WorkOk (w.deliver index d) := by
  have hstarts : ∀ i b, (w.deliver index d).starts i b → w.starts i b := fun i b h =>
    ((starts_deliver hplain).mp h).2
  exact { hw with
    early := fun h => by simp [(hw.early h).2.2] at hadmitted
    unstarted := fun h => by simp [show w.admitted = false from h] at hadmitted
    starting := fun i b h => hw.starting i b (hstarts i b h)
    unique := fun i k b c hi hk => hw.unique i k b c (hstarts i b hi) (hstarts k c hk)
    progress := fun hs h => by
      rcases hw.progress hs h with ⟨i, b, hi⟩ | hone
      · refine .inl ⟨i, b, (starts_deliver hplain).mpr ⟨?_, hi⟩⟩
        rintro rfl
        exact hother b hi
      · exact .inr hone
    pending := fun _ h => by simp [show w.admitted = false from h] at hadmitted }

theorem sent_of_delivery (hat : w.deliveries[index]? = some d) : w.stage = .sent := by
  by_contra hstage
  simp [(hw.early hstage).2.1] at hat

theorem admitted_of_delivery (hat : w.deliveries[index]? = some d) (hlate : d ≠ .claimed) :
    w.admitted = true := by
  by_contra hadmitted
  exact hlate ((hw.unstarted (by simpa using hadmitted)).2 d (mem_of_getElem? hat))

/-- The slot is nobody's while a delivery is about to start without a canceled
reservation. -/
theorem free_of_starting (hstart : w.starts index b) (hrow : w.reserved ≠ some .canceled) :
    w.owed + w.returned = 0 := by
  have hsent := hw.sent_of_delivery hstart
  exact hw.unowed fun h => by simpa [hsent, hrow] using hw.given h

omit hw in
/-- A reservation that is queued or canceled is what an admitted delivery goes for. -/
theorem admission_reserved {reserved : Option InstanceState} {again : Bool} {r : Readings}
    (hout : admission payload reserved again r = .ok b)
    (hpayload : ∀ p, payload = .ok p → p.reserved = reserved.isSome)
    (hrow : reserved = some .queued ∨ reserved = some .canceled) : b = true := by
  obtain ⟨p, hdecode, hout⟩ := bind_ok hout
  obtain ⟨-, -, hout⟩ := bind_ok hout
  obtain ⟨-, -, hout⟩ := bind_ok hout
  have hp : p.reserved = true := by
    rw [hpayload p (decode_ok hdecode)]
    rcases hrow with rfl | rfl <;> rfl
  have hall : (reserved.all fun row => row = .queued || row = .canceled) = true := by
    rcases hrow with rfl | rfl <;> rfl
  rw [useReservation, hp, hall] at hout
  split at hout
  · split at hout
    · cases hout
    · exact (Except.ok.inj hout).symm
  · exact (Except.ok.inj hout).symm

theorem execute {r : Readings} (hguard : carriedOut w (.execute index r) = true)
    (hstep : w.execute index r = some t) : WorkOk t := by
  rw [Work.execute] at hstep
  split at hstep
  · rename_i hat
    rw [carriedOut, decide_eq_true_eq] at hguard
    split at hstep
    · rename_i b hadmission
      cases hstep
      have hadmitted : w.admitted = false := by simpa [hadmission, Except.isOk, Except.toBool] using hguard
      obtain ⟨hruns, hclaimed⟩ := hw.unstarted hadmitted
      have hsent := hw.sent_of_delivery hat
      have hlt := (List.getElem?_eq_some_iff.mp hat).1
      have hset : (w.deliver index (.admitted b)).deliveries[index]? = some (.admitted b) := by
        rw [deliver, getElem?_set_self hlt]
      have hstarts : ∀ i c, (w.deliver index (.admitted b)).starts i c → i = index ∧ c = b := by
        intro i c h
        by_cases hi : index = i
        · subst hi
          rw [starts, hset, some.injEq, Delivery.admitted.injEq] at h
          exact ⟨rfl, h.symm⟩
        · rw [starts, deliver, getElem?_set_ne hi] at h
          cases hclaimed _ (mem_of_getElem? h)
      exact { hw with
        early := fun h => absurd hsent h
        unstarted := by simp
        starting := fun i c h => by
          obtain ⟨-, rfl⟩ := hstarts i c h
          refine ⟨rfl, hruns, ?_⟩
          rintro rfl
          constructor
          · intro hrow
            cases admission_reserved hadmission hw.payload (.inl hrow)
          · intro hrow
            cases admission_reserved hadmission hw.payload (.inr hrow)
        unique := fun i k c c' hi hk => (hstarts i c hi).1.trans (hstarts k c' hk).1.symm
        progress := fun _ _ => .inl ⟨index, b, hset⟩
        pending := by simp
        readers := fun _ => .inl rfl }
    · rename_i hadmission
      have hadmitted : w.admitted = true := by simpa [hadmission, Except.isOk, Except.toBool] using hguard
      exact some.inj hstep ▸ hw.moved hadmitted (by simp [starts, hat]) nofun
  · cases hstep

theorem none_starts {i : ℕ} {c : Bool} (hstart : w.starts index b) (hplain : ∀ c, d ≠ .admitted c) :
    ¬ (w.deliver index d).starts i c := by
  intro h
  obtain ⟨hne, hi⟩ := (starts_deliver hplain).mp h
  exact hne (hw.unique index i b c hstart hi)

/-- The run of an admitted delivery takes the slot over, which nobody has to give back. -/
theorem run {row : Option InstanceState} (hstart : w.starts index b)
    (hfree : w.owed + w.returned = 0) (hsome : row.isSome = w.reserved.isSome)
    (hqueued : row ≠ some .queued) (hcanceled : row ≠ some .canceled) :
    WorkOk (run { w with reserved := row } index true instID) := by
  obtain ⟨hadmitted, hruns, -⟩ := hw.starting index b hstart
  have hsent := hw.sent_of_delivery hstart
  have hstarts : ∀ i c, ¬ (w.deliver index (.driving w.runs.length)).starts i c :=
    fun i c => hw.none_starts hstart (d := .driving w.runs.length) nofun
  have hslot : SlotOk (w.launch instID) :=
    (Launched.driven _ (.fresh instID w.wf w.cell [] w.event) rfl).slotOk
  have hone : (w.runs ++ [w.launch instID]).length = 1 := by simp [hruns]
  exact { hw with
    slots := fun s hs => by
      have hs : s ∈ w.runs ++ [w.launch instID] := hs
      rw [hruns, nil_append, mem_singleton] at hs
      exact hs ▸ hslot
    share := by
      change w.owed + w.returned + (w.runs ++ [w.launch instID]).length ≤ 1
      omega
    payload := fun p hp => (hw.payload p hp).trans hsome.symm
    early := fun h => absurd hsent h
    given := fun h => absurd h (by change w.owed + w.returned ≠ 1; omega)
    canceled := fun h => absurd h hcanceled
    queued := fun h => absurd h hqueued
    unstarted := fun h => by simp [show w.admitted = false from h] at hadmitted
    starting := fun i c h => absurd h (hstarts i c)
    unique := fun i k c c' hi _ => absurd hi (hstarts i c)
    progress := fun _ _ => .inr (by
      change w.owed + w.returned + (w.runs ++ [w.launch instID]).length = 1
      omega)
    pending := fun _ h => by simp [show w.admitted = false from h] at hadmitted
    readers := fun _ => .inl hadmitted }

/-- A delivery that finds its row canceled reports without a run. -/
theorem lost (hstart : w.starts index b) (hrow : w.reserved = some .canceled)
    {result : FinishResult} : WorkOk (w.deliver index (.reporting result)) := by
  obtain ⟨hadmitted, hruns, -⟩ := hw.starting index b hstart
  have hstarts : ∀ i c, ¬ (w.deliver index (.reporting result)).starts i c :=
    fun i c => hw.none_starts hstart (d := .reporting result) nofun
  exact { hw with
    early := fun h => absurd (hw.sent_of_delivery hstart) h
    unstarted := fun h => by simp [show w.admitted = false from h] at hadmitted
    starting := fun i c h => absurd h (hstarts i c)
    unique := fun i k c c' hi _ => absurd hi (hstarts i c)
    progress := fun _ _ => .inr (by
      change w.owed + w.returned + w.runs.length = 1
      simp [hw.canceled hrow, hruns])
    pending := fun _ h => by simp [show w.admitted = false from h] at hadmitted }

theorem start {ok : Bool} (hguard : carriedOut w (.start index ok instID) = true)
    (hstep : w.start index ok instID = some t) : WorkOk t := by
  rw [Work.start] at hstep
  split at hstep
  · rename_i hat
    split_ifs at hstep with hqueued
    · have hok : ok = true := by simpa [carriedOut, hat, hqueued] using hguard
      subst hok
      have hfree := hw.free_of_starting hat (by simp [hqueued])
      exact some.inj hstep ▸ hw.run hat hfree (by simp [hqueued]) nofun nofun
    · have hrow : w.reserved = some .canceled := by simpa [carriedOut, hat, hqueued] using hguard
      exact some.inj hstep ▸ hw.lost hat hrow
  · rename_i hat
    have hok : ok = true := by simpa [carriedOut, hat] using hguard
    subst hok
    obtain ⟨-, -, hrow⟩ := hw.starting index false hat
    have hfree := hw.free_of_starting hat (hrow rfl).2
    exact some.inj hstep ▸ hw.run hat hfree rfl (hrow rfl).1 (hrow rfl).2
  · cases hstep

theorem returns {success canceled : Bool} (hstep : w.returns index success canceled = some t) :
    WorkOk t := by
  rw [Work.returns] at hstep
  split at hstep
  · rename_i hat
    obtain ⟨-, ⟨⟩⟩ := ite_none_right_eq_some.mp hstep
    have hadmitted := hw.admitted_of_delivery hat nofun
    exact hw.moved hadmitted (by simp [starts, hat]) nofun
  · cases hstep

theorem withJob {j : Job} {job : Option Job} (hjob : w.job = some j)
    (hpending : w.admitted = false → ∃ j', job = some j' ∧
      (j'.state = .queued ∨ w.deliveries ≠ [] ∨ 0 < w.readers ∨ w.owed + w.returned = 1)) :
    WorkOk { w with job := job } :=
  { hw with
    early := fun h => by simp [(hw.early h).1] at hjob
    pending := fun _ h => hpending h }

/-- The report of a delivery is written to the job and the delivery is over. -/
theorem finish (hstep : w.finish now index = some t) : WorkOk t := by
  rw [Work.finish] at hstep
  split at hstep
  · rename_i hat
    cases hstep
    have hadmitted := hw.admitted_of_delivery hat nofun
    have hmoved : WorkOk (w.deliver index .finished) :=
      hw.moved hadmitted (by simp [starts, hat]) nofun
    exact { hmoved with
      early := fun h => by simp [(hw.early h).2.2] at hadmitted
      pending := fun _ h => by simp [show w.admitted = false from h] at hadmitted }
  · cases hstep

theorem spoken {j : Job} (hjob : w.job = some j) (hadmitted : w.admitted = false)
    (hleft : j.state ≠ .queued) : w.deliveries ≠ [] ∨ 0 < w.readers ∨ w.owed + w.returned = 1 := by
  obtain ⟨j', hjob', hwhere⟩ := hw.pending (hw.sent_of_job hjob) hadmitted
  rw [hjob, some.injEq] at hjob'
  exact hwhere.resolve_left (hjob' ▸ hleft)

theorem expire (hstep : w.expire now = some t) : WorkOk t := by
  obtain ⟨j, hjob, hstep⟩ := bind_eq_some_iff.mp hstep
  obtain ⟨hleased, ⟨⟩⟩ := ite_none_right_eq_some.mp hstep
  refine hw.withJob hjob fun hadmitted => ⟨_, rfl, .inr ?_⟩
  exact hw.spoken hjob hadmitted (by simp [hleased])

theorem cancel (hguard : carriedOut w (.cancel now) = true) (hstep : w.cancel now = some t) :
    WorkOk t := by
  obtain ⟨j, hjob, hstep⟩ := bind_eq_some_iff.mp hstep
  obtain ⟨-, ⟨⟩⟩ := ite_none_right_eq_some.mp hstep
  refine hw.withJob hjob fun hadmitted => ⟨_, rfl, .inr ?_⟩
  simp only [carriedOut, hadmitted, hjob, Bool.false_or, Bool.or_eq_true, decide_eq_true_eq,
    any_some] at hguard
  rcases hguard with (hreader | hrow) | hleased
  · exact .inr (.inl hreader)
  · exact .inr (.inr (hw.canceled hrow))
  · exact hw.spoken hjob hadmitted (by simp [hleased])

theorem stopReserved (hstep : w.stopReserved = some t) : WorkOk t := by
  obtain ⟨hqueued, ⟨⟩⟩ := ite_none_right_eq_some.mp hstep
  exact { hw with
    pending := fun hs h => by
      obtain ⟨j, hjob, -⟩ := hw.pending hs h
      exact ⟨j, hjob, .inr (.inr (.inl (Nat.succ_pos _)))⟩
    readers := fun _ => .inr (.inl hqueued) }

theorem cancelReserved (hguard : carriedOut w .cancelReserved = true)
    (hstep : w.cancelReserved = some t) : WorkOk t := by
  rw [Work.cancelReserved] at hstep
  split at hstep
  · cases hstep
  · rename_i readers hreaders
    cases hstep
    by_cases hqueued : w.reserved = some .queued
    · obtain ⟨hruns, hstage⟩ := hw.queued hqueued
      rw [if_pos hqueued]
      have hfree := hw.unowed fun h => by
        have hgiven := hw.given h
        simp [carriedOut] at hguard
        simp [hqueued, hguard, hstage] at hgiven
      exact { hw with
        share := by simp [hruns]; omega
        payload := fun p hp => (hw.payload p hp).trans (by simp [hqueued])
        withdrawn := by simp [carriedOut] at hguard; simp [hguard, hstage]
        given := fun _ => .inl rfl
        canceled := fun _ => by simp; omega
        queued := by simp
        starting := fun i b h => by
          obtain ⟨hadmitted, -, hrow⟩ := hw.starting i b h
          exact ⟨hadmitted, hruns, fun hb => absurd hqueued (hrow hb).1⟩
        progress := fun _ _ => .inr (by simp [hruns]; omega)
        pending := fun hs h => by
          obtain ⟨j, hjob, -⟩ := hw.pending hs h
          exact ⟨j, hjob, .inr (.inr (.inr (by simp; omega)))⟩
        readers := fun _ => .inr (.inr (by simp; omega)) }
    · rw [if_neg hqueued]
      have hreader := hw.readers (by omega)
      exact { hw with
        pending := fun hs h => by
          obtain ⟨j, hjob, hwhere⟩ := hw.pending hs h
          refine ⟨j, hjob, ?_⟩
          rcases hwhere with hstate | hdeliveries | - | hgiven
          · exact .inl hstate
          · exact .inr (.inl hdeliveries)
          · have hgiven : w.owed + w.returned = 1 := by
              simpa [show w.admitted = false from h, hqueued] using hreader
            exact .inr (.inr (.inr hgiven))
          · exact .inr (.inr (.inr hgiven))
        readers := fun _ => hreader }

/-- Whoever ended the work before it ran gives its slot back. -/
theorem giveBack (hstep : w.giveBack = some t) : WorkOk t := by
  rw [Work.giveBack] at hstep
  split at hstep
  · cases hstep
  · rename_i owed howed
    cases hstep
    have hsame : owed + (w.returned + 1) = w.owed + w.returned := by omega
    exact { hw with
      share := hsame ▸ hw.share
      withdrawn := hsame ▸ hw.withdrawn
      given := hsame ▸ hw.given
      canceled := hsame ▸ hw.canceled
      progress := hsame ▸ hw.progress
      pending := hsame ▸ hw.pending
      readers := hsame ▸ hw.readers }

/-- Whoever moves a run leaves its slot to it. -/
theorem setRun {run : ℕ} {s u : StopState} (hat : w.runs[run]? = some s) (hslot : SlotOk u) :
    WorkOk { w with runs := w.runs.set run u } := by
  have hruns : w.runs ≠ [] := ne_nil_of_mem (mem_of_getElem? hat)
  have hlength : (w.runs.set run u).length = w.runs.length := length_set
  exact { hw with
    slots := fun s hs => by
      rcases mem_or_eq_of_mem_set hs with hs | rfl
      · exact hw.slots s hs
      · exact hslot
    share := hlength ▸ hw.share
    queued := fun h => absurd (hw.queued h).1 hruns
    unstarted := fun h => absurd (hw.unstarted h).1 hruns
    starting := fun i b h => absurd (hw.starting i b h).2.1 hruns
    progress := hlength ▸ hw.progress }

/-- A step of the run settles at most once, and under a live context it decrements. -/
theorem engine {e : Engine} {run : ℕ} {ev : StopEvent}
    (hguard : carriedOut w (.engine run ev) = true)
    (hstep : w.engine e fallbacks run ev = some t) : WorkOk t := by
  obtain ⟨s, hat, hstep⟩ := bind_eq_some_iff.mp hstep
  obtain ⟨u, hmove, rfl⟩ := map_eq_some_iff.mp hstep
  refine hw.setRun hat ((hw.slots s (mem_of_getElem? hat)).move ?_ hmove)
  rintro rfl
  simpa [carriedOut, hat, Decidable.imp_iff_not_or] using hguard

/-- The end of a context leaves the slot where it is. -/
theorem abort {run : ℕ} {err : String} (hstep : w.abort run err = some t) : WorkOk t := by
  obtain ⟨s, hat, hstep⟩ := bind_eq_some_iff.mp hstep
  obtain ⟨-, ⟨⟩⟩ := ite_none_right_eq_some.mp hstep
  exact hw.setRun hat ((hw.slots s (mem_of_getElem? hat)).aborted err)

/-- Every event that is carried out keeps the invariant. -/
theorem step {e : Engine} {ev : WorkEvent} (hguard : carriedOut w ev = true)
    (hstep : workStep e fallbacks w ev = some t) : WorkOk t := by
  cases ev with
  | enqueue => exact hw.enqueue hguard hstep
  | abandon => exact hw.abandon hstep
  | claim => exact hw.claim hstep
  | execute => exact hw.execute hguard hstep
  | start => exact hw.start hguard hstep
  | returns => exact hw.returns hstep
  | finish => exact hw.finish hstep
  | expire => exact hw.expire hstep
  | cancel => exact hw.cancel hguard hstep
  | stopReserved => exact hw.stopReserved hstep
  | cancelReserved => exact hw.cancelReserved hguard hstep
  | giveBack => exact hw.giveBack hstep
  | forceRestart =>
    have hqueued : w.reserved ≠ some .queued := by simpa [carriedOut] using hguard
    rw [workStep, some.injEq, forceRestart, if_neg hqueued] at hstep
    exact hstep ▸ hw
  | engine => exact hw.engine hguard hstep
  | abort => exact hw.abort hstep

theorem runs_cases : w.runs = [] ∨ ∃ s, w.runs = [s] := by
  have hshare := hw.share
  cases hruns : w.runs with
  | nil => exact .inl rfl
  | cons s rest =>
    have hrest : rest = [] := by
      rw [hruns, length_cons] at hshare
      exact eq_nil_of_length_eq_zero (by omega)
    exact .inr ⟨s, by rw [hrest]⟩

theorem share_of_ended (hended : w.ended = true) : w.owed + w.returned + w.runs.length = 1 := by
  have hshare := hw.share
  simp only [ended, Bool.and_eq_true, Bool.or_eq_true, decide_eq_true_eq,
    List.all_eq_true] at hended
  obtain ⟨⟨⟨⟨⟨hstage, hjob⟩, hfinished⟩, hreaders⟩, howed⟩, hover⟩ := hended
  rcases hstage with hsent | hwithdrawn
  · cases hadmitted : w.admitted with
    | true =>
      rcases hw.progress hsent hadmitted with ⟨i, b, hi⟩ | hone
      · have hbusy := hfinished _ (mem_of_getElem? hi)
        cases hbusy
      · exact hone
    | false =>
      obtain ⟨j, hj, hwhere⟩ := hw.pending hsent hadmitted
      rcases hwhere with hqueued | hdeliveries | hreader | hgiven
      · simp [hj, hqueued, JobState.isTerminal] at hjob
      · obtain ⟨d, hd⟩ := exists_mem_of_ne_nil _ hdeliveries
        have hbusy := hfinished d hd
        rw [(hw.unstarted hadmitted).2 d hd] at hbusy
        cases hbusy
      · omega
      · omega
  · have hgiven := hw.withdrawn (.inr hwithdrawn)
    omega

/-- At the end the slot was released by the run or given back, never both. -/
theorem releasedOnce : w.ReleasedOnce := by
  have hshare := hw.share
  rcases hw.runs_cases with hnone | ⟨s, hone⟩
  · have hreleased : w.released = w.returned := by simp [released, hnone]
    rw [hnone, length_nil] at hshare
    refine ⟨by omega, ?_⟩
    intro hended
    have howed : w.owed = 0 := by
      simp only [ended, Bool.and_eq_true, decide_eq_true_eq] at hended
      exact hended.1.2
    have hsum := hw.share_of_ended hended
    rw [hnone, length_nil] at hsum
    omega
  · have hreleased : w.released = w.returned + s.released := by simp [released, hone]
    have hslot := hw.slots s (by simp [hone])
    rw [hone, length_singleton] at hshare
    constructor
    · cases hlive : s.live with
      | true =>
        have hkept := hslot.kept hlive
        omega
      | false =>
        have hgiven := hslot.given hlive
        omega
    · intro hended
      have hover : s.live = false ∧ s.releasing = 0 := by
        simp only [ended, Bool.and_eq_true, hone] at hended
        simpa using hended.2
      have hgiven := hslot.given hover.1
      omega

end WorkOk

/-- Before the fan-out has enqueued the match, nothing has happened to the slot. -/
theorem workOk_of_counted (wf : WorkflowConfig) (cell : SourceItem)
    (payload : Except String Payload) (reserved : Option InstanceState)
    (hpayload : ∀ p, payload = .ok p → p.reserved = reserved.isSome)
    (hrow : reserved ≠ some .canceled) :
    WorkOk { wf := wf, cell := cell, payload := payload, reserved := reserved } where
  slots s hs := absurd hs not_mem_nil
  share := Nat.zero_le _
  payload := hpayload
  early _ := ⟨rfl, rfl, rfl⟩
  withdrawn h := by simp at h
  given h := absurd h Nat.zero_ne_one
  canceled h := absurd h hrow
  queued _ := ⟨rfl, by simp⟩
  unstarted _ := ⟨rfl, by simp⟩
  starting i b h := by simp [starts] at h
  unique i j b c h := by simp [starts] at h
  progress h := by simp at h
  pending h := by simp at h
  readers h := absurd h (Nat.lt_irrefl 0)

theorem workOk_of_event (wf : WorkflowConfig) (cell : SourceItem) (event : String → Option String) :
    WorkOk { wf := wf, cell := cell, event := event, stage := .sent,
             deliveries := [.admitted false], admitted := true } where
  slots s hs := absurd hs not_mem_nil
  share := Nat.zero_le _
  payload p hp := by cases hp; rfl
  early h := absurd rfl h
  withdrawn h := by simp at h
  given h := absurd h Nat.zero_ne_one
  canceled h := by simp at h
  queued h := by simp at h
  unstarted h := by simp at h
  starting i b h := ⟨rfl, rfl, fun _ => ⟨by simp, by simp⟩⟩
  unique i j b c hi hj := by
    cases i <;> cases j <;> simp_all [starts]
  progress _ _ := .inl ⟨0, false, rfl⟩
  pending _ h := by simp at h
  readers h := absurd h (Nat.lt_irrefl 0)

theorem Counted.workOk (hcounted : Counted w) : WorkOk w := by
  cases hcounted with
  | fanOut wf cell payload hplain => exact workOk_of_counted wf cell payload none hplain nofun
  | manual wf cell payload hreserved =>
    exact workOk_of_counted wf cell payload (some .queued) hreserved nofun
  | event wf cell event => exact workOk_of_event wf cell event

end Steps

/-- In every run in which exactly one delivery is let through and starts its run, and a
reservation is left to one of those who want it, the slot is given back at most once, and
exactly once by the time that the work has ended. -/
theorem slot_of_work_released_once (e : Engine) (fallbacks : String → ℕ) {w t : Work}
    {es : List WorkEvent} (hcounted : Counted w)
    (hguarded : Machine.Guarded (workStep e fallbacks) (fun w ev => carriedOut w ev = true) w es)
    (hrun : exec (workStep e fallbacks) w es = some t) : t.ReleasedOnce := by
  have hkept : ∀ w ev w', WorkOk w → carriedOut w ev = true → workStep e fallbacks w ev = some w' →
      WorkOk w' := fun w ev w' hw hguard hstep => hw.step hguard hstep
  exact (exec_invariant hkept hcounted.workOk hguarded hrun).releasedOnce

def noteJob : Job := { idempotencyKey := "T1:1:note", maxAttempts := 2 }

def noteWork (once : Bool) : Work := { wf := noteWorkflow, payload := .ok { once := once } }

theorem noteWork_counted (once : Bool) : Counted (noteWork once) :=
  .fanOut noteWorkflow {} (.ok { once := once }) fun _ hp => by cases hp; rfl

/-- The note is enqueued, claimed and looked at. -/
def noteDelivered (r : Readings) : List WorkEvent := [.enqueue (some noteJob), .claim, .execute 0 r]

/-- The run of a note, to the end of its settle. -/
def noteSettled (run : ℕ) (result : StepResult) (rest : ℕ) : List WorkEvent :=
  (noteDriven result rest ++ List.replicate 3 StopEvent.settle).map (.engine run)

def noteWritten : List WorkEvent :=
  noteDelivered {} ++ [.start 0 true "wf-1"] ++ noteSettled 0 { success := true } 4 ++
    [.returns 0 true false, .finish 1 0]

theorem noteWritten_released_once :
    ∃ t, exec (workStep (plainEngine 2) fun _ => 0) (noteWork false) noteWritten = some t ∧
      t.ended = true ∧ t.ReleasedOnce := by
  refine ⟨_, exec_get (by decide), by decide, ?_⟩
  exact slot_of_work_released_once (plainEngine 2) (fun _ => 0) (noteWork_counted false) (by decide)
    (exec_get _)

/-- The trigger fires once, and the note has been written in the meantime. -/
def noteSkipped : List WorkEvent := noteDelivered { completed := .ok true } ++ [.finish 1 0]

/-- The lease expires while the note is written, the run fails before a heartbeat finds
that out, and the job is delivered once more. -/
def noteExpired : List WorkEvent :=
  noteDelivered {} ++ [.start 0 true "wf-1", .expire 1] ++
    noteSettled 0 { output := "failed" } 3 ++
    [.returns 0 false false, .finish 1 0, .claim, .execute 1 {}, .start 1 true "wf-2"] ++
    noteSettled 1 { output := "failed" } 3 ++ [.returns 1 false false, .finish 2 1]

/-- The job is canceled while the note is written, and a heartbeat sees it. -/
def noteCanceled : List WorkEvent :=
  noteDelivered {} ++ [.start 0 true "wf-1", .cancel 1, .abort 0 "context canceled"] ++
    noteSettled 0 { output := "killed" } 3 ++ [.returns 0 false true, .finish 2 0]

theorem notes_not_released_once :
    (∃ t, exec (workStep (plainEngine 2) fun _ => 0) (noteWork true) noteSkipped = some t ∧
      t.ended = true ∧ t.released = 0 ∧ ¬ t.ReleasedOnce) ∧
    (∃ t, exec (workStep (plainEngine 2) fun _ => 0) (noteWork false) noteExpired = some t ∧
      t.ended = true ∧ t.released = 2 ∧ ¬ t.ReleasedOnce) ∧
    ∃ t, exec (workStep (plainEngine 2) fun _ => 0) (noteWork false) noteCanceled = some t ∧
      t.ended = true ∧ t.released = 0 ∧ ¬ t.ReleasedOnce := by
  refine ⟨⟨_, exec_get (by decide), by decide, by decide, fun honce => ?_⟩,
    ⟨_, exec_get (by decide), by decide, by decide, fun honce => ?_⟩,
    ⟨_, exec_get (by decide), by decide, by decide, fun honce => ?_⟩⟩
  · nomatch honce.2 (by decide)
  · nomatch honce.1
  · nomatch honce.2 (by decide)

end Apiary.Daemon
