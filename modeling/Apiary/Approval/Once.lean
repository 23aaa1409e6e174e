import Apiary.Approval.GateSteps

/-!
# A decision advances the park it was made for, once

The guards of the daemon keep two goroutines from advancing an instance at the
same time, but not one after the other: a claim checks that the instance is
parked, not where.  As long as nobody claims the run while another goroutine is
between its look at the park and its own claim, the request it looked at is the
one of the current park.
-/

namespace Apiary.Approval

open Config Workflow List Option Function Machine GateState

variable {req : ApprovalRequest} {clock now : ℕ} {store : Store} {request : String}
  {response : ApprovalResponse} {out : Store × Option ApprovalRequest × Bool} {d : DriveState}
  {wr : WorkerResult}

/-- Every decision that advanced the run was made on the request of the park it
advanced, and no request's decision was used twice. -/
def AppliedOnce (s : GateState) : Prop :=
  (∀ a ∈ s.applied, a.park = some a.request) ∧ (s.applied.map Applied.request).Nodup

/-- An approval goroutine between its look at the instance (the snapshot of the
poll cycle, or the write that resolved the request) and its claim. -/
def Handler.underway : Handler → Bool
  | .answered _ _ => true
  | .polled => true
  | .looking => true
  | .rechecking => true
  | .evaluating => true
  | .escalating _ => true
  | .expiring _ => true
  | .deciding _ => true
  | .resolving _ _ => true
  | .advancing _ _ => true
  | _ => false

/-- The condition on a step: a goroutine claims the parked run only while no other
approval goroutine is under way, and a park at an approval gets its request
recorded. -/
def actsAlone (s : GateState) : GateEvent → Bool
  | .act i .next =>
    match s.handlers i with
    | .advancing _ _ =>
      s.held ≠ .parked || (List.range s.started).all fun j => j = i || !(s.handlers j).underway
    | _ => true
  | .loop (.sched now) =>
    match s.parking with
    | some step =>
      step.type ≠ .approval ||
        (s.store.createApprovalRequest (approvalRequestOf s.drive.run now step)).isOk
    | none => true
  | _ => true

/-! ## The invariant -/

/-- What a goroutine may rely on, given the tables and the request of the current
park. -/
def HandlerOk (store : Store) (inst : String) (held : Held) (park : Option String) : Handler → Prop
  | .responding request _ => ∃ r ∈ store.requestsOf inst, r.id = request
  | .answered request _ => park = some request ∧ Closed store request
  | .polled => park ≠ none
  | .looking => park ≠ none
  | .rechecking => park ≠ none
  | .evaluating => park ≠ none
  | .escalating request => park = some request
  | .expiring request => park = some request
  | .deciding _ => park ≠ none
  | .resolving request _ => park = some request
  | .advancing request _ => ∃ r, request = some r ∧ park = some r ∧ Closed store r
  | .waking => held = .parked ∧ park = none
  | _ => True

/-- A park has a request exactly when it is at an approval. -/
structure ParkOk (d : DriveState) (held : Held) (park : Option String) : Prop where
  wellFormed : WellFormed d
  steps : (d.run.wf.steps.map StepConfig.id).Nodup
  parked : park ≠ none → d.phase = .parked ∧ (byID d.run.wf d.run.waitingStep).type = .approval
  unparked : park = none → d.phase = .parked → (byID d.run.wf d.run.waitingStep).type ≠ .approval
  child : d.run.waitingChild ≠ "" → d.phase = .parked ∧ park = none
  held : held = .parked → d.phase = .parked

/-- The only request of the instance that can be open is that of the current park,
and it is the newest. -/
structure TablesOk (store : Store) (inst : String) (clock : ℕ) (park : Option String) :
    Prop where
  ids : (store.requests.map ApprovalRequest.id).Nodup
  clock : ∀ r ∈ store.requestsOf inst, r.createdAt ≤ clock
  gates : ∀ r ∈ store.requestsOf inst, r.status.isOpen = true → park = some r.id
  newest : ∀ request, park = some request →
    (store.getApprovalByInstance inst).map ApprovalRequest.id = some request

/-- The wait guard has at most one holder. -/
structure GuardsOk (handlers : ℕ → Handler) (started : ℕ) (waiting : Bool) : Prop where
  waiters : ∀ i, (handlers i).waits = true → waiting = true ∧ ∀ j, (handlers j).waits = true → j = i
  unstarted : ∀ i, started ≤ i → handlers i = .done

structure AppliedOk (applied : List Applied) (store : Store) (park : Option String) : Prop where
  own : ∀ a ∈ applied, a.park = some a.request
  closed : ∀ a ∈ applied, Closed store a.request
  past : ∀ a ∈ applied, park ≠ some a.request
  once : (applied.map Applied.request).Nodup

structure Synced (s : GateState) : Prop where
  park : ParkOk s.drive s.held s.parkRequest
  tables : TablesOk s.store s.inst s.clock s.parkRequest
  handlers : ∀ i, HandlerOk s.store s.inst s.held s.parkRequest (s.handlers i)
  guards : GuardsOk s.handlers s.started s.waitAdvancing
  applied : AppliedOk s.applied s.store s.parkRequest

section Parts

variable {store store' : Store} {inst : String} {held held' : Held} {park : Option String}
  {h : Handler}

section

variable (hok : HandlerOk store inst held park h)

include hok

/-- Rows moving on takes nothing away from a goroutine. -/
theorem HandlerOk.mono (hheld : held = .parked → held' = .parked) (hgrows : Grows store store') :
    HandlerOk store' inst held' park h := by
  cases h with
  | responding => exact hgrows.requestOf hok
  | answered => exact ⟨hok.1, hgrows.closed hok.2⟩
  | advancing =>
    obtain ⟨r, hr, hrequest, hclosed⟩ := hok
    exact ⟨r, hr, hrequest, hgrows.closed hclosed⟩
  | waking => exact ⟨hheld hok.1, hok.2⟩
  | _ => exact hok

/-- A goroutine that is neither under way nor about to wake the run only relies on
its request being there. -/
theorem HandlerOk.idle {park' : Option String} (hunderway : h.underway = false)
    (hwaking : h ≠ .waking) (hgrows : Grows store store') :
    HandlerOk store' inst held' park' h := by
  cases h with
  | responding => exact hgrows.requestOf hok
  | waking => exact absurd rfl hwaking
  | done | driving | leaving | waitPolled | waitChecking | waitDriving | waitLeaving => trivial
  | _ => cases hunderway

theorem HandlerOk.park_ne_none (hunderway : h.underway = true) : park ≠ none := by
  cases h with
  | answered => simp [hok.1]
  | advancing =>
    obtain ⟨r, -, hrequest, -⟩ := hok
    simp [hrequest]
  | escalating request | expiring request | resolving request =>
    simp [show park = some request from hok]
  | polled | looking | rechecking | evaluating | deciding => exact hok
  | _ => cases hunderway

theorem HandlerOk.settled : HandlerOk store inst held park h.settled := by
  cases h with
  | driving | waitDriving => trivial
  | _ => exact hok

end

theorem settled_waits (h : Handler) : h.settled.waits = h.waits := by
  cases h <;> rfl

theorem mem_requestsOf {r : ApprovalRequest} :
    r ∈ store.requestsOf inst ↔ r ∈ store.requests ∧ r.workflowInstanceID = inst := by
  rw [Store.requestsOf, mem_filter, decide_eq_true_eq]

theorem newest_mem (hnewest : store.getApprovalByInstance inst = some req) :
    req ∈ store.requestsOf inst :=
  mem_reverse.mp (argmax_mem hnewest)

variable (htables : TablesOk store inst clock park)

include htables

theorem TablesOk.evolve (hevolve : RequestsEvolve store store') :
    TablesOk store' inst clock park := by
  have hrow : ∀ r ∈ store'.requestsOf inst, ∃ old ∈ store.requestsOf inst, Evolves old r := by
    intro r hr
    rw [mem_requestsOf] at hr
    obtain ⟨old, hold, hevolves⟩ := hevolve.of_mem hr.1
    exact ⟨old, mem_requestsOf.mpr ⟨hold, hevolves.instance_eq.symm.trans hr.2⟩, hevolves⟩
  refine ⟨Grows.ids (.evolved hevolve) htables.ids, ?_, ?_, ?_⟩
  · intro r hr
    obtain ⟨old, hold, hevolves⟩ := hrow r hr
    rw [hevolves.createdAt]
    exact htables.clock old hold
  · intro r hr hopen
    obtain ⟨old, hold, hevolves⟩ := hrow r hr
    rw [hevolves.id]
    exact htables.gates old hold (hevolves.isOpen hopen)
  · intro request hrequest
    exact (hevolve.newest inst).trans (htables.newest request hrequest)

theorem TablesOk.park_eq (hpark : park ≠ none)
    (hnewest : store.getApprovalByInstance inst = some req) : park = some req.id := by
  obtain ⟨request, rfl⟩ := ne_none_iff_exists'.mp hpark
  have hid := htables.newest request rfl
  rw [hnewest, map_some, some.injEq] at hid
  rw [hid]

omit htables in
theorem AppliedOk.grows {applied : List Applied} (happlied : AppliedOk applied store park)
    (hgrows : Grows store store') : AppliedOk applied store' park :=
  ⟨happlied.own, fun a ha => hgrows.closed (happlied.closed a ha), happlied.past, happlied.once⟩

theorem TablesOk.left (hclosed : ∀ request, park = some request → Closed store request) :
    TablesOk store inst clock none := by
  refine ⟨htables.ids, htables.clock, ?_, by simp⟩
  intro row hrow hopen
  have hpark := htables.gates row hrow hopen
  obtain ⟨row', hrow', hid, hstatus⟩ := hclosed row.id hpark
  have heq := eq_of_id htables.ids (mem_requestsOf.mp hrow).1 hrow' hid.symm
  rw [heq, hstatus] at hopen
  cases hopen

end Parts

section Guards

variable {handlers : ℕ → Handler} {started i : ℕ} {waiting : Bool} {h : Handler}

section

variable (hguards : GuardsOk handlers started waiting)

include hguards

theorem GuardsOk.started_of (hbusy : handlers i ≠ .done) : i < started := by
  by_contra hlate
  exact hbusy (hguards.unstarted i (by omega))

theorem GuardsOk.unstarted_update (hbusy : handlers i ≠ .done) (j : ℕ) (hj : started ≤ j) :
    update handlers i h j = .done := by
  have hne : j ≠ i := by
    have hlt := hguards.started_of hbusy
    omega
  rw [update_of_ne hne]
  exact hguards.unstarted j hj

theorem GuardsOk.waiters_update (hwaits : h.waits = true → (handlers i).waits = true) (k : ℕ)
    (hk : (update handlers i h k).waits = true) :
    waiting = true ∧ ∀ j, (update handlers i h j).waits = true → j = k := by
  have hold : ∀ j, (update handlers i h j).waits = true → (handlers j).waits = true := by
    intro j hj
    by_cases hji : j = i
    · rw [hji, update_self] at hj
      exact hji ▸ hwaits hj
    · rwa [update_of_ne hji] at hj
  obtain ⟨hguard, honly⟩ := hguards.waiters k (hold k hk)
  exact ⟨hguard, fun j hj => honly j (hold j hj)⟩

theorem GuardsOk.update (hbusy : handlers i ≠ .done)
    (hwaits : h.waits = true → (handlers i).waits = true) :
    GuardsOk (update handlers i h) started waiting :=
  ⟨hguards.waiters_update hwaits, hguards.unstarted_update hbusy⟩

theorem GuardsOk.settled : GuardsOk (fun i => (handlers i).settled) started waiting := by
  constructor
  · intro i hi
    rw [settled_waits] at hi
    obtain ⟨hguard, honly⟩ := hguards.waiters i hi
    refine ⟨hguard, fun j hj => honly j ?_⟩
    rwa [settled_waits] at hj
  · intro i hi
    rw [hguards.unstarted i hi]
    rfl

end

theorem WaitMoves.guards {s : GateState} (hguards : GuardsOk s.handlers s.started s.waitAdvancing)
    (hmoves : WaitMoves s (s.handlers i) h waiting) :
    GuardsOk (update s.handlers i h) s.started waiting := by
  generalize hhandler : s.handlers i = old at hmoves
  cases hmoves with
  | busy => exact hguards.update (by simp [hhandler]) (by simp [Handler.waits])
  | guard hfree =>
    refine ⟨?_, hguards.unstarted_update (by simp [hhandler])⟩
    -- nobody held the guard, so the new holder is the only one
    have honly : ∀ j, (update s.handlers i .waitChecking j).waits = true → j = i := by
      intro j hj
      by_contra hne
      rw [update_of_ne hne] at hj
      nomatch hfree.symm.trans (hguards.waiters j hj).1
    exact fun k hk => ⟨rfl, fun j hj => (honly j hj).trans (honly k hk).symm⟩
  | terminal =>
    refine hguards.update (by simp [hhandler]) fun _ => ?_
    rw [hhandler]
    rfl
  | leave old hwaits =>
    refine hguards.update ?_ fun _ => hhandler.symm ▸ hwaits
    intro hdone
    rw [← hhandler, hdone] at hwaits
    cases hwaits
  | release =>
    refine ⟨?_, hguards.unstarted_update (by simp [hhandler])⟩
    intro k hk
    exfalso
    by_cases hki : k = i
    · rw [hki, update_self] at hk
      cases hk
    · rw [update_of_ne hki] at hk
      have honly := (hguards.waiters i (by rw [hhandler]; rfl)).2 k hk
      exact hki honly

end Guards

/-! ## Each step keeps it -/

section Steps

variable {e : Engine} {s t : GateState} {i : ℕ} {h : Handler}

variable (hs : Synced s)

include hs

theorem Synced.evolve (hevolve : RequestsEvolve s.store store) : Synced { s with store := store } :=
  { park := hs.park
    tables := hs.tables.evolve hevolve
    handlers := fun j => (hs.handlers j).mono (fun hheld => hheld) (.evolved hevolve)
    guards := hs.guards
    applied := hs.applied.grows (.evolved hevolve) }

theorem Synced.handlers_update (hok : HandlerOk s.store s.inst s.held s.parkRequest h) (j : ℕ) :
    HandlerOk s.store s.inst s.held s.parkRequest (update s.handlers i h j) := by
  exact (forall_update_iff s.handlers fun _ => HandlerOk _ _ _ _).mpr ⟨hok, fun j _ => hs.handlers j⟩ j

/-- A goroutine moves on and neither takes nor gives back the wait guard. -/
theorem Synced.move (advancing : Bool) (hbusy : s.handlers i ≠ .done) (hwaits : h.waits = false)
    (hok : HandlerOk s.store s.inst s.held s.parkRequest h) :
    Synced ({ s with approvalAdvancing := advancing }.setHandler i h) :=
  { park := hs.park
    tables := hs.tables
    handlers := hs.handlers_update hok
    guards := hs.guards.update hbusy (by simp [hwaits])
    applied := hs.applied }

theorem Moves.handlerOk {h' : Handler} (hmoves : Moves s h h')
    (hok : HandlerOk s.store s.inst s.held s.parkRequest h) :
    HandlerOk s.store s.inst s.held s.parkRequest h' := by
  cases hmoves with
  | finish | leave => trivial
  | guard request => exact ⟨request, rfl, hok.1, hok.2⟩
  | look | recheck | evaluate | decide => exact hok
  | adopt req hnewest hclosed =>
    exact ⟨req.id, rfl, hs.tables.park_eq hok hnewest, req,
      (mem_requestsOf.mp (newest_mem hnewest)).1, rfl, hclosed⟩
  | escalate req hnewest | expire req hnewest | resolve approve req hnewest =>
    exact hs.tables.park_eq hok hnewest
  | unrecorded approve hnewest =>
    obtain ⟨request, hrequest⟩ := ne_none_iff_exists'.mp hok
    obtain ⟨req, hsome, -⟩ := map_eq_some_iff.mp (hs.tables.newest request hrequest)
    nomatch hnewest.symm.trans hsome

omit hs in
theorem Moves.busy {h' : Handler} (hmoves : Moves s h h') : h ≠ .done ∧ h'.waits = false := by
  cases hmoves with
  | finish h hanswers | leave h hanswers =>
    refine ⟨?_, rfl⟩
    rintro rfl
    cases hanswers
  | _ => exact ⟨by simp, rfl⟩

theorem Synced.moved (advancing : Bool) (hmoves : Moves s (s.handlers i) h) :
    Synced ({ s with approvalAdvancing := advancing }.setHandler i h) := by
  obtain ⟨hbusy, hwaits⟩ := hmoves.busy
  exact hs.move advancing hbusy hwaits (hmoves.handlerOk hs (hs.handlers i))

theorem Synced.parkedAtWait (hparked : s.parkedAtWait = true) :
    s.held = .parked ∧ s.parkRequest = none := by
  simp only [GateState.parkedAtWait, Bool.and_eq_true, decide_eq_true_eq] at hparked
  refine ⟨hparked.1, ?_⟩
  by_contra hpark
  have happroval := (hs.park.parked hpark).2
  have hchild : s.drive.run.waitingChild = "" := by
    by_contra hne
    exact hpark (hs.park.child hne).2
  have hwait := hparked.2
  rw [DagRun.waitStepConfig] at hwait
  split at hwait
  · cases hwait
  · simp only [hchild, ne_eq, not_true_eq_false, if_false, decide_eq_true_eq] at hwait
    rw [hwait] at happroval
    cases happroval

theorem Synced.waitMoved {waiting : Bool} (hmoves : WaitMoves s (s.handlers i) h waiting) :
    Synced ({ s with waitAdvancing := waiting }.setHandler i h) := by
  have hok : HandlerOk s.store s.inst s.held s.parkRequest h := by
    generalize s.handlers i = old at hmoves
    cases hmoves with
    | terminal hparked => exact hs.parkedAtWait hparked
    | _ => trivial
  have hguards : GuardsOk (update s.handlers i h) s.started waiting := hmoves.guards hs.guards
  exact ⟨hs.park, hs.tables, hs.handlers_update hok, hguards, hs.applied⟩

theorem Synced.answered (hmem : ∃ r ∈ s.store.requestsOf s.inst, r.id = request)
    (hanswered : Answered s.store request response out) (hwon : out.2.2 = true) :
    s.parkRequest = some request ∧ Closed out.1 request := by
  cases hanswered with
  | refused | counted => cases hwon
  | decided current hfind hopen =>
    obtain ⟨r, hr, hid⟩ := hmem
    obtain ⟨hcurrent, hcurrentID⟩ := getApprovalRequest_mem hfind
    have hsame : r = current :=
      eq_of_id hs.tables.ids (mem_requestsOf.mp hr).1 hcurrent (hid.trans hcurrentID.symm)
    subst hsame
    refine ⟨hid ▸ hs.tables.gates r hr hopen, Store.resolution response r, ?_, ?_, ?_⟩
    · exact List.mem_map.mpr ⟨r, hcurrent, if_pos hid⟩
    · exact (resolution_evolves response r).id.trans hid
    · simp only [Store.resolution, hopen, if_true, ApprovalResponse.status]
      split <;> rfl

theorem Synced.responded (hhandler : s.handlers i = .responding request response)
    (hanswered : Answered s.store request response out) :
    Synced ({ s with store := out.1 }.setHandler i
      (if out.2.2 then .answered request response else .done)) := by
  have hmem := hs.handlers i
  rw [hhandler] at hmem
  have hstored := hs.evolve hanswered.evolves
  have hbusy : s.handlers i ≠ .done := by simp [hhandler]
  split_ifs with hwon
  · exact hstored.move s.approvalAdvancing hbusy rfl (hs.answered hmem hanswered hwon)
  · exact hstored.move s.approvalAdvancing hbusy rfl trivial

theorem Synced.adopted {adopted : ApprovalResponse} (hpark : s.parkRequest = some request)
    (hanswered : Answered s.store request response out)
    (hadopted : adoptedResponse response out.2.1 out.2.2 = some adopted) :
    Closed out.1 request := by
  have hmem : ∃ r ∈ s.store.requestsOf s.inst, r.id = request := by
    obtain ⟨req, hnewest, hid⟩ := map_eq_some_iff.mp (hs.tables.newest request hpark)
    exact ⟨req, newest_mem hnewest, hid⟩
  have hwon := hs.answered hmem hanswered
  cases hanswered with
  | refused current hfind =>
    obtain ⟨hcurrent, hid⟩ := getApprovalRequest_mem hfind
    refine ⟨current, hcurrent, hid, ?_⟩
    cases hopen : current.status.isOpen with
    | false => rfl
    | true => simp [adoptedResponse, hopen] at hadopted
  | counted current hfind hopen => simp [adoptedResponse, hopen] at hadopted
  | decided => exact (hwon rfl).2

theorem Synced.resolved {approve : Bool} (hhandler : s.handlers i = .resolving request approve)
    (hanswered : Answered s.store request (sourceResponse s.inst approve) out) :
    Synced ({ s with store := out.1 }.setHandler i
      (match adoptedResponse (sourceResponse s.inst approve) out.2.1 out.2.2 with
        | none => .leaving
        | some response => .advancing (some request) response)) := by
  have hpark := hs.handlers i
  rw [hhandler] at hpark
  have hstored := hs.evolve hanswered.evolves
  have hbusy : s.handlers i ≠ .done := by simp [hhandler]
  split
  · exact hstored.move s.approvalAdvancing hbusy rfl trivial
  · rename_i hadopted
    exact hstored.move s.approvalAdvancing hbusy rfl
      ⟨request, rfl, hpark, hs.adopted hpark hanswered hadopted⟩

/-! ### Claims -/

theorem actsAlone_others {request : Option String}
    (hhandler : s.handlers i = .advancing request response) (hheld : s.held = .parked)
    (halone : actsAlone s (.act i .next) = true) {j : ℕ} (hj : j ≠ i) :
    (s.handlers j).underway = false := by
  simp only [actsAlone, hhandler, hheld, ne_eq, not_true_eq_false, decide_false, Bool.false_or,
    List.all_eq_true, mem_range, Bool.or_eq_true, decide_eq_true_eq, Bool.not_eq_true'] at halone
  by_cases hstarted : j < s.started
  · exact (halone j hstarted).resolve_left hj
  · rw [hs.guards.unstarted j (by omega)]
    rfl

/-- Who claims the run takes the others' place: they were not under way. -/
theorem Synced.handlers_claim {held : Held} {park : Option String}
    (hunderway : ∀ j, j ≠ i → (s.handlers j).underway = false)
    (hwaking : ∀ j, j ≠ i → s.handlers j ≠ .waking) (hok : HandlerOk s.store s.inst held park h)
    (j : ℕ) : HandlerOk s.store s.inst held park (update s.handlers i h j) := by
  refine (forall_update_iff s.handlers fun _ => HandlerOk _ _ _ _).mpr ⟨hok, fun j hj => ?_⟩ j
  exact (hs.handlers j).idle (hunderway j hj) (hwaking j hj) (.evolved (.refl _))

theorem Synced.not_underway (hpark : s.parkRequest = none) (j : ℕ) :
    (s.handlers j).underway = false := by
  cases hunderway : (s.handlers j).underway with
  | false => rfl
  | true => exact absurd hpark ((hs.handlers j).park_ne_none hunderway)

/-- The claim of an approval goroutine, alone at its park. -/
theorem Synced.advanced {request : Option String}
    (hhandler : s.handlers i = .advancing request response)
    (halone : ∀ j, j ≠ i → (s.handlers j).underway = false)
    (hstep : step e s.drive (.resolve (!response.rejects) (approvalMemory response)) = some d) :
    Synced
      { s with
        drive := d
        held := .driving
        handlers := update s.handlers i .driving
        parkRequest := none
        applied := (request.toList.map fun r => ⟨r, s.parkRequest⟩) ++ s.applied } := by
  have hok := hs.handlers i
  rw [hhandler] at hok
  obtain ⟨r, rfl, hpark, hclosed⟩ := hok
  have hwellFormed := hs.park.wellFormed.step hstep
  have hwaking : ∀ j, j ≠ i → s.handlers j ≠ .waking := by
    intro j _ heq
    have hok := hs.handlers j
    rw [heq] at hok
    nomatch hpark.symm.trans hok.2
  have hchild : s.drive.run.waitingChild = "" := by
    by_contra hne
    nomatch hpark.symm.trans (hs.park.child hne).2
  have htables : TablesOk s.store s.inst s.clock none := by
    refine hs.tables.left fun request hrequest => ?_
    rw [hpark, some.injEq] at hrequest
    exact hrequest ▸ hclosed
  cases step_cases hstep with
  | resolve =>
    refine ⟨⟨hwellFormed, hs.park.steps, by simp, by simp, fun hne => absurd hchild hne, by simp⟩,
      htables, hs.handlers_claim halone hwaking trivial, ?_, ?_⟩
    · exact hs.guards.update (by simp [hhandler]) (by simp [Handler.waits])
    · refine ⟨?_, ?_, by simp, ?_⟩
      · exact forall_mem_cons.mpr ⟨hpark, hs.applied.own⟩
      · exact forall_mem_cons.mpr ⟨hclosed, hs.applied.closed⟩
      · change (r :: s.applied.map Applied.request).Nodup
        refine nodup_cons.mpr ⟨?_, hs.applied.once⟩
        intro hmem
        obtain ⟨a, ha, rfl⟩ := List.mem_map.mp hmem
        exact hs.applied.past a ha hpark

/-- The claim of a wait goroutine. -/
theorem Synced.woken (hhandler : s.handlers i = .waking) (hstep : step e s.drive .wake = some d) :
    Synced
      { s with
        drive := d
        held := .driving
        handlers := update s.handlers i .waitDriving
        parkRequest := none } := by
  have hpark := hs.handlers i
  rw [hhandler] at hpark
  have hwaiter : (s.handlers i).waits = true := by
    rw [hhandler]
    rfl
  have hwaking : ∀ j, j ≠ i → s.handlers j ≠ .waking := by
    intro j hj heq
    exact hj ((hs.guards.waiters i hwaiter).2 j (by rw [heq]; rfl))
  have hwellFormed := hs.park.wellFormed.step hstep
  cases step_cases hstep with
  | wake =>
    exact ⟨⟨hwellFormed, hs.park.steps, by simp, by simp, fun hne => absurd rfl hne, by simp⟩,
      hpark.2 ▸ hs.tables, hs.handlers_claim (fun j _ => hs.not_underway hpark.2 j) hwaking trivial,
      hs.guards.update (by simp [hhandler]) fun _ => hwaiter,
      hpark.2 ▸ hs.applied⟩

/-! ### The loop -/

theorem Synced.idle_driving (hheld : s.held = .driving) (hphase : s.drive.phase ≠ .parked) :
    s.parkRequest = none ∧ s.drive.run.waitingChild = "" ∧
      ∀ j, (s.handlers j).underway = false ∧ s.handlers j ≠ .waking := by
  have hpark : s.parkRequest = none := by
    by_contra hne
    exact hphase (hs.park.parked hne).1
  refine ⟨hpark, ?_, ?_⟩
  · by_contra hne
    exact hphase (hs.park.child hne).1
  · intro j
    constructor
    · exact hs.not_underway hpark j
    · intro heq
      have hok := hs.handlers j
      rw [heq] at hok
      nomatch hheld.symm.trans hok.1

theorem Synced.enterPark {request : Option String} (hheld : s.held = .driving)
    (hphase : s.drive.phase = .drain wr) (hnone : s.drive.inFlight = 0)
    (hgrows : Grows s.store store) (htables : TablesOk store s.inst now request)
    (hkind : request ≠ none ↔ wr.step.type = .approval)
    (hfresh : ∀ id, Closed s.store id → request ≠ some id) :
    Synced { s with
      drive := s.drive.park now wr, clock := now, store := store, parkRequest := request } := by
  obtain ⟨-, hchild, hidle⟩ := hs.idle_driving hheld (by simp [hphase])
  obtain ⟨_, _, _, heq⟩ := enterPark_eq s.drive.run now wr
  have hself := byID_of_nodup hs.park.steps (hs.park.wellFormed.draining wr hphase)
  have htype : (byID (s.drive.run.enterPark now wr).wf
      (s.drive.run.enterPark now wr).waitingStep).type = wr.step.type := by
    simp only [heq, hself]
  have hpark : ParkOk (s.drive.park now wr) s.held request := by
    refine ⟨hs.park.wellFormed.parked now hphase hnone,
      by rw [DriveState.park, heq]; exact hs.park.steps,
      fun hsome => ⟨rfl, htype.trans (hkind.mp hsome)⟩, ?_, ?_, ?_⟩
    · intro hrequest _ happroval
      exact hkind.mpr (htype.symm.trans happroval) hrequest
    · intro hne
      refine ⟨rfl, ?_⟩
      by_contra hsome
      have happroval := hkind.mp hsome
      change (s.drive.run.enterPark now wr).waitingChild ≠ "" at hne
      rw [DagRun.enterPark, happroval] at hne
      exact hne hchild
    · simp [hheld]
  have hinst : inst { s with
      drive := s.drive.park now wr, clock := now, store := store, parkRequest := request } =
        s.inst := by
    rw [inst, DriveState.park, heq]
    rfl
  refine ⟨hpark, hinst.symm ▸ htables, ?_, hs.guards, ?_⟩
  · rw [hinst]
    exact fun j => (hs.handlers j).idle (hidle j).1 (hidle j).2 hgrows
  · exact ⟨hs.applied.own, (hs.applied.grows hgrows).closed,
      fun a ha => hfresh a.request (hs.applied.closed a ha), hs.applied.once⟩

omit hs in
theorem TablesOk.minted {inst : String} {row : ApprovalRequest}
    (htables : TablesOk store inst clock none) (hinst : row.workflowInstanceID = inst)
    (hclock : clock ≤ now) (hcreated : row.createdAt = now)
    (hfresh : ∀ r ∈ store.requests, r.id ≠ row.id) :
    TablesOk { store with requests := store.requests ++ [row] } inst now (some row.id) := by
  have hrows : ∀ r ∈ Store.requestsOf { store with requests := store.requests ++ [row] } inst,
      r ∈ store.requestsOf inst ∨ r = row := by
    intro r hr
    rw [mem_requestsOf] at hr
    rcases mem_append.mp hr.1 with hold | hnew
    · exact .inl (mem_requestsOf.mpr ⟨hold, hr.2⟩)
    · exact .inr (mem_singleton.mp hnew)
  refine ⟨Grows.ids (.added row rfl hfresh) htables.ids, ?_, ?_, ?_⟩
  · intro r hr
    rcases hrows r hr with hold | rfl
    · exact (htables.clock r hold).trans hclock
    · exact hcreated.le
  · intro r hr hopen
    rcases hrows r hr with hold | rfl
    · nomatch htables.gates r hold hopen
    · rfl
  · intro id hid
    have hlatest : ∀ old ∈ store.requestsOf row.workflowInstanceID,
        old.createdAt ≤ row.createdAt := by
      intro old hold
      rw [hinst] at hold
      exact ((htables.clock old hold).trans hclock).trans hcreated.ge
    have hnewest : Store.getApprovalByInstance
        { requests := store.requests ++ [row], responses := store.responses } inst = some row :=
      hinst ▸ getApprovalByInstance_append hlatest
    rw [hnewest, map_some, hid]

theorem Synced.opened (hheld : s.held = .driving) (hclock : s.clock ≤ now)
    (hphase : s.drive.phase = .drain wr) (hnone : s.drive.inFlight = 0)
    (hrecorded : wr.step.type = .approval →
      (s.store.createApprovalRequest (approvalRequestOf s.drive.run now wr.step)).isOk = true) :
    Synced ({ s with drive := s.drive.park now wr, clock := now }.opened now wr.step) := by
  obtain ⟨hpark, -, -⟩ := hs.idle_driving hheld (by simp [hphase])
  have htables : TablesOk s.store s.inst s.clock none := hpark ▸ hs.tables
  obtain ⟨_, _, _, heq⟩ := enterPark_eq s.drive.run now wr
  rw [GateState.opened]
  split
  · rename_i happroval
    have hrequest : approvalRequestOf (s.drive.park now wr).run now wr.step =
        approvalRequestOf s.drive.run now wr.step := by
      simp [approvalRequestOf, DriveState.park, heq]
    have hok := hrecorded happroval
    dsimp only
    rw [hrequest]
    split
    · rename_i hcreate
      cases createApprovalRequest_cases hcreate with
      | reused gate hmem hinstance hopen =>
        have hgate := htables.gates gate (mem_requestsOf.mpr ⟨hmem, hinstance⟩) hopen
        cases hgate
      | kept r hr htaken => exact absurd htaken (mint_attempt_fresh rfl hr)
      | minted hfresh =>
        refine hs.enterPark hheld hphase hnone (.added _ rfl hfresh)
          (htables.minted rfl hclock rfl hfresh) (by simp [happroval]) ?_
        intro id hclosed hid
        obtain ⟨r, hr, hrid, -⟩ := hclosed
        rw [some.injEq] at hid
        exact hfresh r hr (hrid.trans hid.symm)
    · rename_i hcreate
      rw [hcreate] at hok
      cases hok
  · rename_i hother
    refine hs.enterPark hheld hphase hnone (.evolved (.refl _)) ?_ (by simp [hother]) (by simp)
    exact ⟨htables.ids, fun r hr => (htables.clock r hr).trans hclock, htables.gates,
      htables.newest⟩

theorem Synced.looped {ev : Event} (halone : actsAlone s (.loop ev) = true)
    (hstep : s.loop e ev = some t) : Synced t := by
  cases loop_cases hs.park.wellFormed hstep with
  | park now wr hheld hclock hphase hnone =>
    refine hs.opened hheld hclock hphase hnone ?_
    intro happroval
    simpa [actsAlone, parking, hphase, hnone, happroval] using halone
  | move ev d clock hheld hclock hfrom hwellFormed hkept hphase =>
    obtain ⟨hpark, hchild, hidle⟩ := hs.idle_driving hheld hfrom
    have hinst : inst { s with drive := d, clock := clock } = s.inst := hkept.instID
    have hempty : d.run.waitingChild = "" := by
      rcases hkept.waitingChild with hsame | hempty
      · exact hsame.trans hchild
      · exact hempty
    refine ⟨⟨hwellFormed, hkept.wf.symm ▸ hs.park.steps, fun hsome => absurd hpark hsome,
      fun _ hparked => absurd hparked hphase, fun hne => absurd hempty hne, ?_⟩, ?_, ?_,
      hs.guards, hs.applied⟩
    · simp [hheld]
    · rw [hinst]
      exact ⟨hs.tables.ids, fun r hr => (hs.tables.clock r hr).trans hclock, hs.tables.gates,
        hs.tables.newest⟩
    · rw [hinst]
      exact fun j => (hs.handlers j).idle (hidle j).1 (hidle j).2 (.evolved (.refl _))

/-- Whoever drove the run is released when it settles; it parked or ended. -/
theorem Synced.settle (hheld : s.held = .driving) {held : Held}
    (hphase : held = .parked → s.drive.phase = .parked) :
    Synced { s with held := held, handlers := fun i => (s.handlers i).settled } :=
  { park := ⟨hs.park.wellFormed, hs.park.steps, hs.park.parked, hs.park.unparked, hs.park.child,
      hphase⟩
    tables := hs.tables
    handlers := fun i => (hs.handlers i).settled.mono (by simp [hheld]) (.evolved (.refl _))
    guards := hs.guards.settled
    applied := hs.applied }

/-- A goroutine is started. -/
theorem Synced.launch (hok : HandlerOk s.store s.inst s.held s.parkRequest h)
    (hwaits : h.waits = false) : Synced (s.launch h) :=
  { park := hs.park
    tables := hs.tables
    handlers := hs.handlers_update hok
    guards := by
      refine ⟨hs.guards.waiters_update (by simp [hwaits]), ?_⟩
      intro j hj
      have hle : s.started + 1 ≤ j := hj
      have hne : j ≠ s.started := by omega
      exact (update_of_ne hne h s.handlers).trans (hs.guards.unstarted j (by omega))
    applied := hs.applied }

/-- Another instance uses the tables. -/
theorem Synced.elsewhere {op : Store.Op} (hother : s.store.concerns op ≠ some s.inst) :
    Synced { s with store := s.store.apply op } := by
  have hgrows := apply_grows s.store op
  have hof := apply_requestsOf hs.tables.ids hother
  have hnewest : (s.store.apply op).getApprovalByInstance s.inst =
      s.store.getApprovalByInstance s.inst := by
    rw [Store.getApprovalByInstance, hof]
    rfl
  exact
    { park := hs.park
      tables := ⟨hgrows.ids hs.tables.ids, fun r hr => hs.tables.clock r (hof ▸ hr),
        fun r hr => hs.tables.gates r (hof ▸ hr),
        fun request hrequest => hnewest.symm ▸ hs.tables.newest request hrequest⟩
      handlers := fun j => (hs.handlers j).mono (fun hheld => hheld) hgrows
      guards := hs.guards
      applied := hs.applied.grows hgrows }

theorem Synced.acted {a : Act} (hacted : Acted e s i a t) (halone : actsAlone s (.act i a) = true) :
    Synced t := by
  cases hacted with
  | moved h advancing hmoves => exact hs.moved advancing hmoves
  | waitMoved h advancing hmoves => exact hs.waitMoved hmoves
  | responded request response out hhandler hanswered => exact hs.responded hhandler hanswered
  | escalated request hhandler =>
    have hpark := hs.handlers i
    rw [hhandler] at hpark
    exact (hs.evolve (escalateApproval_evolves s.store request)).move s.approvalAdvancing
      (by simp [hhandler]) rfl (ne_none_iff_exists'.mpr ⟨request, hpark⟩)
  | expired request hhandler =>
    have hpark := hs.handlers i
    rw [hhandler] at hpark
    exact (hs.evolve (markApprovalTimedOut_evolves s.store request)).move s.approvalAdvancing
      (by simp [hhandler]) rfl (ne_none_iff_exists'.mpr ⟨request, hpark⟩)
  | resolved request approve out hhandler hanswered => exact hs.resolved hhandler hanswered
  | advanced request response d hnext hhandler hheld hstep =>
    subst hnext
    exact hs.advanced hhandler (fun j hj => actsAlone_others hs hhandler hheld halone hj) hstep
  | woken d hhandler hheld hstep => exact hs.woken hhandler hstep

theorem Synced.step {ev : GateEvent} (halone : actsAlone s ev = true)
    (hstep : gateStep e s ev = some t) : Synced t := by
  cases ev with
  | loop => exact hs.looped halone hstep
  | settle =>
    rw [gateStep, GateState.settle] at hstep
    obtain ⟨hheld, hstep⟩ := ite_none_right_eq_some.mp hstep
    split at hstep
    · rename_i hphase
      exact some.inj hstep ▸ hs.settle hheld fun _ => hphase
    · exact some.inj hstep ▸ hs.settle hheld (by simp)
    · cases hstep
  | respond =>
    rw [gateStep, respond] at hstep
    split at hstep
    · cases hstep
    · rename_i req hfind
      obtain ⟨hmine, hstep⟩ := ite_none_right_eq_some.mp hstep
      simp only [Bool.and_eq_true, decide_eq_true_eq] at hmine
      rw [some.injEq] at hstep
      obtain ⟨hmem, hid⟩ := getApprovalRequest_mem hfind
      exact hstep ▸ hs.launch ⟨req, mem_requestsOf.mpr ⟨hmem, hmine.1⟩, hid⟩ rfl
  | poll =>
    obtain ⟨hparked, hstep⟩ := ite_none_right_eq_some.mp hstep
    simp only [parkedAtApproval, Bool.and_eq_true, decide_eq_true_eq] at hparked
    cases hstep
    refine hs.launch ?_ rfl
    intro hnone
    exact hs.park.unparked hnone (hs.park.held hparked.1) hparked.2
  | pollWait =>
    obtain ⟨-, ⟨⟩⟩ := ite_none_right_eq_some.mp hstep
    exact hs.launch trivial rfl
  | act => exact hs.acted (act_cases hstep) halone
  | elsewhere =>
    obtain ⟨hother, ⟨⟩⟩ := ite_none_right_eq_some.mp hstep
    exact hs.elsewhere hother

end Steps

/-! ## Runs -/

theorem initial_waitingChild (hinit : Initial d) (htop : d.phase = .top) :
    d.run.waitingChild = "" := by
  cases hinit with
  | fresh => rfl
  | resumed instID wf cell selected => exact (restoreCachedSteps_restores selected _).waitingChild
  | approval instID wf cell prior parkedAt nextRow d hpark =>
    simp only [rehydrateApproval, map_eq_some_iff] at hpark
    obtain ⟨id, -, rfl⟩ := hpark
    cases htop
  | wait instID wf cell prior now nextRow d hpark =>
    simp only [rehydrateWait, map_eq_some_iff] at hpark
    obtain ⟨park, -, rfl⟩ := hpark
    cases htop

theorem start_synced (clock : ℕ) (hinit : Initial d) (htop : d.phase = .top)
    (hsteps : (d.run.wf.steps.map StepConfig.id).Nodup)
    (hids : (store.requests.map ApprovalRequest.id).Nodup)
    (hnew : store.requestsOf d.run.instID = []) :
    Synced { drive := d, store := store, clock := clock } where
  park := ⟨hinit.started.wellFormed, hsteps, by simp, by simp [htop],
    fun hne => absurd (initial_waitingChild hinit htop) hne, by simp⟩
  tables := ⟨hids, by simp [inst, hnew], by simp [inst, hnew], by simp⟩
  handlers := fun _ => trivial
  guards := ⟨by simp [Handler.waits], fun _ _ => rfl⟩
  applied := ⟨by simp, by simp, by simp, nodup_nil⟩

/-- In every run of a new instance, whatever the responses, poll cycles, timeouts,
wakes and other instances' transactions and however they interleave, as long as
each claim finds no other approval goroutine under way and each approval park gets
its request recorded, every decision is applied once and to the park that opened
its request. -/
theorem decisions_applied_once (e : Engine) {d : DriveState} {store : Store} {clock : ℕ}
    {t : GateState} {es : List GateEvent} (hinit : Initial d) (htop : d.phase = .top)
    (hsteps : (d.run.wf.steps.map StepConfig.id).Nodup)
    (hids : (store.requests.map ApprovalRequest.id).Nodup)
    (hnew : store.requestsOf d.run.instID = [])
    (halone : Machine.Guarded (gateStep e) (fun s ev => actsAlone s ev = true)
      { drive := d, store := store, clock := clock } es)
    (hrun : exec (gateStep e) { drive := d, store := store, clock := clock } es = some t) :
    AppliedOnce t := by
  have hkept : ∀ s ev s', Synced s → actsAlone s ev = true → gateStep e s ev = some s' →
      Synced s' := fun s ev s' hs hguard hstep => hs.step hguard hstep
  have hsynced := exec_invariant hkept
    (start_synced clock hinit htop hsteps hids hnew) halone hrun
  exact ⟨hsynced.applied.own, hsynced.applied.once⟩

/-! ## Two approvals in a row -/

def twoGates : WorkflowConfig where
  id := "two-gates"
  steps :=
    [{ id := "review", type := .approval, approvers := ["alice"] },
     { id := "ship", type := .approval, dependsOn := ["review"], approvers := ["bob"] }]

def twoGatesStart : DriveState := { run := initDAG "wf-1" twoGates {} [] fun _ => none }

theorem twoGatesStart_initial : Initial twoGatesStart := Initial.fresh "wf-1" twoGates {} [] _

def approvalBy (actor key : String) : ApprovalResponse where
  decision := "approve"
  actor := actor
  idempotencyKey := key

/-- A response is recorded, claims the guard and advances the run. -/
def respondFully (request : String) (response : ApprovalResponse) (i : ℕ) : List GateEvent :=
  [.respond request response, .act i .next, .act i .next, .act i .next]

/-- Each approval is answered by its own response. -/
def answeredInTurn : List GateEvent :=
  toNextPark ++ respondFully "wf-1:review" (approvalBy "alice" "k-1") 0 ++ toNextPark ++
    [.act 0 .next] ++ respondFully "wf-1:ship" (approvalBy "bob" "k-2") 1

/-- Alice's response is recorded; before its handler goes on, a poll cycle finds the
stored decision, advances the run to `ship` and is done. -/
def overtaken : List GateEvent :=
  toNextPark ++ [.respond "wf-1:review" (approvalBy "alice" "k-1"), .act 0 .next] ++
    [.poll, .act 1 .next, .act 1 .next, .act 1 .next] ++ toNextPark ++ [.act 1 .next] ++
    [.act 0 .next, .act 0 .next]

theorem twoGates_answeredInTurn_once :
    ∃ t, exec (gateStep (plainEngine 1)) { drive := twoGatesStart } answeredInTurn = some t ∧
      t.applied = [⟨"wf-1:ship", some "wf-1:ship"⟩, ⟨"wf-1:review", some "wf-1:review"⟩] ∧
      AppliedOnce t := by
  have hids : (({} : Store).requests.map ApprovalRequest.id).Nodup := nodup_nil
  refine ⟨_, exec_get (by decide), by decide, ?_⟩
  exact decisions_applied_once (plainEngine 1) twoGatesStart_initial rfl (by decide) hids rfl
    (by decide) (exec_get _)

/-- One decision advances two parks: Alice's answer to `review` also passes `ship`. -/
theorem twoGates_overtaken_twice :
    ∃ t, exec (gateStep (plainEngine 1)) { drive := twoGatesStart } overtaken = some t ∧
      t.applied = [⟨"wf-1:review", some "wf-1:ship"⟩, ⟨"wf-1:review", some "wf-1:review"⟩] ∧
      t.drive.run.state "ship" = some .passed ∧ ¬ AppliedOnce t := by
  refine ⟨_, exec_get (by decide), by decide, by decide, fun honce => ?_⟩
  have hown := honce.1 ⟨"wf-1:review", some "wf-1:ship"⟩ (by decide)
  nomatch hown

end Apiary.Approval
