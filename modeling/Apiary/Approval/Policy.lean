import Apiary.Approval.Store
import Apiary.Workflow.Gates

/-!
# Who may answer an approval

The approval fields of a step, their validation, what a poll of the source
decides for the step, and the check an HTTP or webhook response passes before it
reaches the tables.  Go visits a map in no fixed order, so a function that ranges
over the delegates takes them in the order of one visit.
-/

namespace Apiary.Approval

open Workflow List

variable {other sctx actor approver : String}

/-- What the standard library supplies: the lower case of a character, one character
of each class that `strings.EqualFold` identifies, and `time.ParseDuration`. -/
structure TextLib where
  lower : Char → Char
  fold : Char → Char
  parseDuration : String → Except String ℤ

structure ApprovalField where
  name : String
  type : String := ""
  required : Bool := false
  options : List String := []

structure ApprovalTrigger where
  commentContains : String := ""
  labelAdded : String := ""
  stateChanged : String := ""

structure ApprovalStep where
  id : String
  agent : String := ""
  message : String := ""
  approvers : List String := []
  delegates : List (String × List String) := []
  requiredApprovals : ℤ := 0
  approvalFields : List ApprovalField := []
  resumeOn : Option ApprovalTrigger := none
  abortOn : Option ApprovalTrigger := none
  remindAfter : String := ""
  escalateAfter : String := ""
  timeout : String := ""

variable (lib : TextLib)

/-- Names are compared without regard to case. -/
def sameName (name other : String) : Bool := name.toList.map lib.fold = other.toList.map lib.fold

theorem sameName_eq_true {name : String} :
    sameName lib name other = true ↔ name.toList.map lib.fold = other.toList.map lib.fold :=
  decide_eq_true_iff

/-! ## Validation -/

def durationErrors (sctx name raw : String) : List String :=
  if raw = "" then []
  else
    match lib.parseDuration raw with
    | .ok d => if 0 < d then [] else [sctx ++ ": invalid " ++ name ++ " " ++ quote raw]
    | .error _ => [sctx ++ ": invalid " ++ name ++ " " ++ quote raw]

/-- One delegate, with the owners seen so far and the errors found so far. -/
def assignDelegate (sctx approver : String) (seen : (String → Option String) × List String)
    (delegate : String) : (String → Option String) × List String :=
  (Function.update seen.1 delegate (some approver), match seen.1 delegate with
    | some owner =>
      if owner = approver then seen.2
      else seen.2 ++
        [sctx ++ ": delegate " ++ quote delegate ++ " is assigned to multiple approvers"]
    | none => seen.2)

def delegateErrors (sctx : String) (approvers : List String) :
    (String → Option String) → List (String × List String) → List String
  | _, [] => []
  | owner, (approver, delegates) :: rest =>
    let seen := delegates.foldl (assignDelegate sctx approver) (owner, [])
    (if approver ∈ approvers then []
      else [sctx ++ ": delegate owner " ++ quote approver ++ " is not an approver"]) ++
    (if delegates = [] then
        [sctx ++ ": delegate owner " ++ quote approver ++ " has no delegates"]
      else []) ++
    seen.2 ++ delegateErrors sctx approvers seen.1 rest

def fieldErrors (sctx : String) : List String → List ApprovalField → List String
  | _, [] => []
  | seen, field :: fields =>
    if field.name = "" then
      (sctx ++ ": approval field name is required") :: fieldErrors sctx seen fields
    else
      (if field.name ∈ seen then
          [sctx ++ ": duplicate approval field " ++ quote field.name] else []) ++
      (if field.type ∈ ["", "string", "text", "boolean", "number", "choice"] then []
        else [sctx ++ ": approval field " ++ quote field.name ++ " has invalid type " ++
          quote field.type]) ++
      (if field.type = "choice" && field.options = [] then
          [sctx ++ ": choice field " ++ quote field.name ++ " requires options"] else []) ++
      fieldErrors sctx (field.name :: seen) fields

def validateApprovalStep (sctx : String) (s : ApprovalStep) : List String :=
  (if s.agent ≠ "" then [sctx ++ ": approval step must not have an agent field"] else []) ++
  (if s.message = "" then [sctx ++ ": approval step requires a message"] else []) ++
  durationErrors lib sctx "remind_after" s.remindAfter ++
  durationErrors lib sctx "escalate_after" s.escalateAfter ++
  (if s.requiredApprovals < 0 ||
      (0 < s.requiredApprovals && (s.approvers.length : ℤ) < s.requiredApprovals) then
      [sctx ++ ": required_approvals cannot exceed the number of approvers"] else []) ++
  delegateErrors sctx s.approvers (fun _ => none) s.delegates ++
  fieldErrors sctx [] s.approvalFields ++
  (if s.timeout = "" then []
    else
      match lib.parseDuration s.timeout with
      | .ok _ => []
      | .error err => [sctx ++ ": invalid timeout " ++ quote s.timeout ++ ": " ++ err])

theorem owner_mem_of_delegateErrors {approvers : List String} {owner : String → Option String}
    {delegates : List (String × List String)}
    (hnone : delegateErrors sctx approvers owner delegates = []) :
    ∀ entry ∈ delegates, entry.1 ∈ approvers := by
  induction delegates generalizing owner with
  | nil => exact fun _ h => absurd h not_mem_nil
  | cons entry rest ih =>
    simp only [delegateErrors, append_eq_nil_iff, ite_eq_left_iff, cons_ne_nil,
      imp_false, not_not] at hnone
    intro other hother
    rcases mem_cons.mp hother with rfl | hrest
    · exact hnone.1.1.1
    · exact ih hnone.2 other hrest

/-- In a validated step only listed approvers have delegates. -/
theorem owner_mem_approvers {s : ApprovalStep} (hvalid : validateApprovalStep lib sctx s = []) :
    ∀ entry ∈ s.delegates, entry.1 ∈ s.approvers := by
  simp only [validateApprovalStep, append_eq_nil_iff] at hvalid
  exact owner_mem_of_delegateErrors hvalid.1.1.2

/-! ## Decisions taken from the source -/

/-- What is read of a source item when an approval is checked. -/
structure LiveItem where
  comments : List String := []
  labels : List String := []
  state : String := ""

inductive ApprovalDecision where
  | wait
  | resume
  | abort
  deriving DecidableEq

def commentContains (item : LiveItem) (sub : String) : Bool :=
  item.comments.any fun body => sub.toList.map lib.lower <:+: body.toList.map lib.lower

def labelPresent (item : LiveItem) (label : String) : Bool :=
  item.labels.any fun l => sameName lib l label

def matchApprovalTrigger (t : ApprovalTrigger) (item : LiveItem) : Bool :=
  (t.commentContains ≠ "" && commentContains lib item t.commentContains) ||
    (t.labelAdded ≠ "" && labelPresent lib item t.labelAdded) ||
    (t.stateChanged ≠ "" && sameName lib item.state t.stateChanged)

/-- Source signals carry no verified author, so a step with approvers ignores them. -/
def evaluateApproval (step : ApprovalStep) (item : LiveItem) : ApprovalDecision :=
  if step.approvers ≠ [] then .wait
  else if step.resumeOn.any fun t => matchApprovalTrigger lib t item then .resume
  else if step.abortOn.any fun t => matchApprovalTrigger lib t item then .abort
  else .wait

/-- The end of `RecheckApproval`: the first bound item that decides.  Items that
could not be polled are passed over. -/
def recheckSources (step : ApprovalStep) : List LiveItem → ApprovalDecision
  | [] => .wait
  | item :: items =>
    match evaluateApproval lib step item with
    | .wait => recheckSources step items
    | decision => decision

theorem recheckSources_named {step : ApprovalStep} (hnamed : step.approvers ≠ [])
    (items : List LiveItem) : recheckSources lib step items = .wait := by
  induction items with
  | nil => rfl
  | cons item items ih =>
    have hwait : evaluateApproval lib step item = .wait := if_pos hnamed
    rw [recheckSources, hwait]
    exact ih

/-! ## Responses -/

/-- What is wrong with the value a response gives for a field, if anything. -/
def fieldError (rejecting : Bool) (values : Structured) (field : ApprovalField) : Option String :=
  let missing :=
    match values.lookup field.name with
    | none => true
    | some .null => true
    | some (.string "") => true
    | some _ => false
  if field.required && !rejecting && missing then
    some ("field " ++ quote field.name ++ " is required")
  else
    match values.lookup field.name, field.type with
    | none, _ => none
    | some (.bool _), "boolean" => none
    | some _, "boolean" => some ("field " ++ quote field.name ++ " must be boolean")
    | some (.number _), "number" => none
    | some _, "number" => some ("field " ++ quote field.name ++ " must be number")
    | some (.string value), "choice" =>
      if value ∈ field.options then none
      else some ("field " ++ quote field.name ++ " is not an allowed choice")
    | some _, "choice" => some ("field " ++ quote field.name ++ " is not an allowed choice")
    | some _, _ => none

/-- The listed approver a person is. -/
def listedApprover (step : ApprovalStep) (actor : String) : Option String :=
  step.approvers.find? fun name => sameName lib name actor

/-- The approver a delegate answers for: the last one of the visit that fits. -/
def delegatedApprover (visit : List (String × List String)) (response : ApprovalResponse) :
    String :=
  visit.foldl
    (fun principal entry =>
      if entry.2.any fun delegate => sameName lib delegate response.actor &&
          (response.approver = "" || sameName lib response.approver entry.1) then entry.1
      else principal) ""

def principalOf (step : ApprovalStep) (visit : List (String × List String))
    (response : ApprovalResponse) : String :=
  let listed := (listedApprover lib step response.actor).getD ""
  if listed = "" then delegatedApprover lib visit response else listed

def validateApprovalResponse (step : ApprovalStep) (visit : List (String × List String))
    (response : ApprovalResponse) : Except String ApprovalResponse :=
  let authorized : Except String ApprovalResponse :=
    if step.approvers = [] then .ok response
    else if principalOf lib step visit response = "" then
      .error ("actor " ++ quote response.actor ++ " is not an authorized approver")
    else .ok { response with approver := principalOf lib step visit response }
  if !(equalFold response.decision "approve" || equalFold response.decision "approved" ||
      response.rejects) then .error "decision must be approve or reject"
  else if response.actor = "" then .error "actor is required"
  else
    match authorized with
    | .error err => .error err
    | .ok answer =>
      match step.approvalFields.findSome? (fieldError response.rejects response.values) with
      | some err => .error err
      | none => .ok answer

/-- On whose behalf a person answers: their own if they are listed, and otherwise
that of an approver who delegates to them. -/
inductive StandsFor (step : ApprovalStep) (actor approver : String) : Prop where
  | listed (hlisted : listedApprover lib step actor = some approver)
  | delegate (hunlisted : listedApprover lib step actor = none) (delegates : List String)
      (hentry : (approver, delegates) ∈ step.delegates) (delegate : String)
      (hdelegate : delegate ∈ delegates) (hsame : sameName lib delegate actor = true)

section Authorization

variable {lib} {step : ApprovalStep} {visit : List (String × List String)}
  {response answer : ApprovalResponse}

theorem listedApprover_eq_some (hlisted : listedApprover lib step actor = some approver) :
    approver ∈ step.approvers ∧ sameName lib approver actor = true :=
  ⟨mem_of_find?_eq_some hlisted, find?_some (p := fun name => sameName lib name actor) hlisted⟩

theorem listedApprover_congr (hsame : sameName lib actor other = true) :
    listedApprover lib step actor = listedApprover lib step other := by
  have hfold := (sameName_eq_true lib).mp hsame
  rw [listedApprover, listedApprover]
  congr 1
  funext name
  simp only [sameName, hfold]

/-- No listed name is the empty one a response may not carry. -/
theorem listedApprover_ne_empty (hactor : actor ≠ "")
    (hlisted : listedApprover lib step actor = some approver) : approver ≠ "" := by
  rintro rfl
  have hfold := (sameName_eq_true lib).mp (listedApprover_eq_some hlisted).2
  exact hactor (String.toList_eq_nil_iff.mp (map_eq_nil_iff.mp hfold.symm))

theorem delegatedApprover_entry (hprincipal : delegatedApprover lib visit response ≠ "") :
    ∃ entry ∈ visit, entry.1 = delegatedApprover lib visit response ∧
      ∃ delegate ∈ entry.2, sameName lib delegate response.actor = true := by
  induction visit using List.reverseRecOn with
  | nil => exact absurd rfl hprincipal
  | append_singleton visit entry ih =>
    rw [delegatedApprover, foldl_append, foldl_cons, foldl_nil] at hprincipal ⊢
    split
    · rename_i hany
      obtain ⟨delegate, hdelegate, hfits⟩ := any_eq_true.mp hany
      rw [Bool.and_eq_true] at hfits
      exact ⟨entry, by simp, rfl, delegate, hdelegate, hfits.1⟩
    · rename_i hnone
      rw [if_neg hnone] at hprincipal
      obtain ⟨found, hfound, heq, hdelegate⟩ := ih hprincipal
      exact ⟨found, mem_append_left _ hfound, heq, hdelegate⟩

theorem principalOf_standsFor (hactor : response.actor ≠ "")
    (hvisit : ∀ entry ∈ visit, entry ∈ step.delegates)
    (hprincipal : principalOf lib step visit response ≠ "") :
    StandsFor lib step response.actor (principalOf lib step visit response) := by
  cases hlisted : listedApprover lib step response.actor with
  | some =>
    have hne := listedApprover_ne_empty hactor hlisted
    rw [principalOf, hlisted, Option.getD_some, if_neg hne]
    exact .listed hlisted
  | none =>
    rw [principalOf, hlisted, Option.getD_none, if_pos rfl] at hprincipal ⊢
    obtain ⟨entry, hentry, heq, delegate, hdelegate, hsame⟩ := delegatedApprover_entry hprincipal
    exact .delegate hlisted entry.2 (heq ▸ hvisit entry hentry) delegate hdelegate hsame

theorem validateApprovalResponse_standsFor (hnamed : step.approvers ≠ [])
    (hvisit : ∀ entry ∈ visit, entry ∈ step.delegates)
    (hok : validateApprovalResponse lib step visit response = .ok answer) :
    StandsFor lib step answer.actor answer.principal := by
  rw [validateApprovalResponse, if_neg hnamed] at hok
  split at hok
  · cases hok
  · split at hok
    · cases hok
    · rename_i hactor
      by_cases hprincipal : principalOf lib step visit response = ""
      · rw [if_pos hprincipal] at hok
        cases hok
      · rw [if_neg hprincipal] at hok
        dsimp only at hok
        split at hok
        · cases hok
        · cases hok
          rw [ApprovalResponse.principal, if_neg hprincipal]
          exact principalOf_standsFor hactor hvisit hprincipal

end Authorization

end Apiary.Approval
