import Apiary.Core.Text
import Apiary.Workflow.Gates
import Apiary.Workflow.Inputs

/-!
# Inputs that carry ticket fields

An input of a sub-workflow may be bound to a field of the ticket, or, in a nested
sub-workflow, to a text with such a field in it.  Its value goes into the prompt of a step
wherever the prompt has a placeholder of the input when its turn comes.
-/

namespace Apiary.Runner

open Workflow Workflow.Inputs List

/-- The ticket fields that a binding can name. -/
inductive TicketField where
  | title
  | description
  | priority
  | type

def TicketField.text (cell : SourceItem) : TicketField → Text
  | .title => cell.title.toList
  | .description => cell.description.toList
  | .priority => cell.priority.toList
  | .type => cell.type.toList

/-- A part of an input's value; ids, memory values and outputs of steps are fixed texts. -/
inductive Segment where
  | fixed (text : Text)
  | field (f : TicketField)

def Segment.text (cell : SourceItem) : Segment → Text
  | .fixed text => text
  | .field f => f.text cell

def Segment.isField : Segment → Bool
  | .fixed _ => false
  | .field _ => true

structure Bound where
  name : Text
  value : List Segment

def Bound.ofTicket (b : Bound) : Bool := b.value.any Segment.isField

def Bound.input (cell : SourceItem) (b : Bound) : Input where
  name := b.name
  value := b.value.flatMap (Segment.text cell)

/-- A template of a step with the inputs put in, in the order of the loop. -/
def renderBound (cell : SourceItem) (bounds : List Bound) (template : Text) : Text :=
  renderInputString template (bounds.map (Bound.input cell))

/-- No placeholder of an input with a ticket field is in the template when the turn comes to
it, that is, in the template with the fixed inputs before it put in. -/
def LeavesOut (bounds : List Bound) (template : Text) : Prop :=
  ∀ before b after, bounds = before ++ b :: after → b.ofTicket = true →
    ∀ old ∈ spellings b.name, ¬ old <:+:
      renderBound {} (before.filter fun fixed => !fixed.ofTicket) template

variable {b : Bound} {bounds : List Bound} {template : Text}

/-! ## Fixed inputs -/

theorem Bound.input_fixed (hfixed : b.ofTicket = false) (cell other : SourceItem) :
    b.input cell = b.input other := by
  have hsame : ∀ s ∈ b.value, s.text cell = s.text other := by
    intro s hs
    rw [ofTicket, any_eq_false] at hfixed
    cases s with
    | fixed => rfl
    | field => exact absurd rfl (hfixed _ hs)
  rw [input, input, flatMap_congr hsame]

theorem renderInputString_append (template : Text) (first second : List Input) :
    renderInputString template (first ++ second) =
      renderInputString (renderInputString template first) second := by
  rw [renderInputString, replacements, flatMap_append, foldl_append]
  rfl

theorem renderBound_cons (cell : SourceItem) (b : Bound) (bounds : List Bound) (template : Text) :
    renderBound cell (b :: bounds) template =
      renderBound cell bounds (renderBound cell [b] template) :=
  renderInputString_append template [b.input cell] (bounds.map (Bound.input cell))

theorem renderBound_absent (cell : SourceItem)
    (habsent : ∀ old ∈ spellings b.name, ¬ old <:+: template) :
    renderBound cell [b] template = template := by
  apply foldl_replaceAll_of_absent
  intro r hr
  obtain ⟨i, hi, old, hold, rfl⟩ := exists_spelling hr
  rw [mem_singleton.mp hi] at hold
  exact habsent old hold

/-- The turn of an input whose placeholders are not in the text, or that is fixed. -/
theorem renderBound_first (hhead : b.ofTicket = true → ∀ old ∈ spellings b.name, ¬ old <:+: template)
    (cell : SourceItem) : renderBound cell [b] template =
      if b.ofTicket then template else renderBound {} [b] template := by
  cases hb : b.ofTicket with
  | true => exact renderBound_absent cell (hhead hb)
  | false =>
    rw [if_neg Bool.false_ne_true, renderBound, renderBound, map_singleton, map_singleton,
      b.input_fixed hb cell {}]

theorem leavesOut_cons (b : Bound) (bounds : List Bound) (template : Text) :
    LeavesOut (b :: bounds) template ↔
      (b.ofTicket = true → ∀ old ∈ spellings b.name, ¬ old <:+: template) ∧
        LeavesOut bounds (if b.ofTicket then template else renderBound {} [b] template) := by
  have hfirst : ∀ before : List Bound,
      renderBound {} ((b :: before).filter fun fixed => !fixed.ofTicket) template =
        renderBound {} (before.filter fun fixed => !fixed.ofTicket)
          (if b.ofTicket then template else renderBound {} [b] template) := by
    intro before
    cases hb : b.ofTicket with
    | true => rw [filter_cons_of_neg (by simp [hb]), if_pos rfl]
    | false =>
      rw [filter_cons_of_pos (by simp [hb]), renderBound_cons, if_neg Bool.false_ne_true]
  constructor
  · intro h
    refine ⟨h [] b bounds rfl, fun before b' after heq => ?_⟩
    rw [← hfirst]
    exact h (b :: before) b' after (congrArg (b :: ·) heq)
  · rintro ⟨hhead, hrest⟩ before b' after heq
    cases before with
    | nil =>
      obtain ⟨rfl, rfl⟩ := List.cons.inj heq
      exact hhead
    | cons first before =>
      obtain ⟨rfl, hbounds⟩ := List.cons.inj heq
      rw [hfirst]
      exact hrest before b' after hbounds

/-- A template that leaves the ticket out is rendered alike for every ticket. -/
theorem LeavesOut.renderBound_eq (hout : LeavesOut bounds template) (cell other : SourceItem) :
    renderBound cell bounds template = renderBound other bounds template := by
  induction bounds generalizing template with
  | nil => rfl
  | cons b bounds ih =>
    obtain ⟨hhead, hrest⟩ := (leavesOut_cons b bounds template).mp hout
    rw [renderBound_cons, renderBound_cons other, renderBound_first hhead cell,
      renderBound_first hhead other]
    exact ih hrest

/-! ## A ticket that shows -/

/-- A ticket whose fields are long runs of one letter. -/
def longTicket (cell : SourceItem) (n : ℕ) : SourceItem :=
  let xs := String.ofList (List.replicate n 'x')
  { cell with title := xs, description := xs, priority := xs, type := xs }

theorem run_infix_input (hb : b.ofTicket = true) (cell : SourceItem) (n : ℕ) :
    List.replicate n 'x' <:+: (b.input (longTicket cell n)).value := by
  obtain ⟨s, hs, hfield⟩ := any_eq_true.mp hb
  obtain ⟨left, right, hsplit⟩ := append_of_mem hs
  have hrun : s.text (longTicket cell n) = List.replicate n 'x' := by
    cases s with
    | fixed => cases hfield
    | field f => cases f <;> exact String.toList_ofList
  rw [Bound.input, hsplit, flatMap_append, flatMap_cons, hrun]
  exact ⟨_, _, append_assoc _ _ _⟩

theorem bracketed_of_long {n : ℕ} (hlong : ∀ b ∈ bounds, ∀ old ∈ spellings b.name, old.length ≤ n)
    (cell : SourceItem) : ∀ r ∈ replacements (bounds.map (Bound.input cell)),
      Bracketed r.old ∧ r.old.length ≤ n := by
  intro r hr
  refine ⟨bracketed_old hr, ?_⟩
  obtain ⟨i, hi, old, hold, rfl⟩ := exists_spelling hr
  obtain ⟨b, hb, rfl⟩ := mem_map.mp hi
  exact hlong b hb old hold

/-- Where the template does not leave the ticket out, long enough fields of a ticket show in
the text. -/
theorem exists_run_infix (hshown : ¬ LeavesOut bounds template) (cell : SourceItem) :
    ∃ m, ∀ n, m ≤ n →
      List.replicate n 'x' <:+: renderBound (longTicket cell n) bounds template := by
  induction bounds generalizing template with
  | nil =>
    refine absurd (fun before b after hnil => ?_) hshown
    exact absurd hnil.symm (append_ne_nil_of_right_ne_nil _ (cons_ne_nil _ _))
  | cons b bounds ih =>
    rw [leavesOut_cons] at hshown
    by_cases hhead : b.ofTicket = true → ∀ old ∈ spellings b.name, ¬ old <:+: template
    · -- the text at the turn of the next input does not depend on the ticket
      obtain ⟨m, hrun⟩ := ih fun hrest => hshown ⟨hhead, hrest⟩
      refine ⟨m, fun n hn => ?_⟩
      rw [renderBound_cons, renderBound_first hhead]
      exact hrun n hn
    · obtain ⟨hb, old, hold, hfound⟩ : b.ofTicket = true ∧
          ∃ old ∈ spellings b.name, old <:+: template := by
        simpa using hhead
      let olds := (b :: bounds).flatMap fun b => spellings b.name
      refine ⟨olds.flatten.length, fun n hn => ?_⟩
      have hlong : ∀ b' ∈ b :: bounds, ∀ old ∈ spellings b'.name, old.length ≤ n := by
        intro b' hb' old hold
        have hmem : old ∈ olds := mem_flatMap.mpr ⟨b', hb', hold⟩
        exact (sublist_flatten_of_mem hmem).length_le.trans hn
      have hfirst := forall_mem_cons.mp hlong
      rw [renderBound_cons]
      apply run_infix_foldl (bracketed_of_long hfirst.2 _)
      apply run_infix_foldl_of_found (bracketed_of_long (forall_mem_singleton.mpr hfirst.1) _)
      · intro r hr
        obtain ⟨i, hi, old, hold, rfl⟩ := exists_spelling hr
        rw [mem_singleton.mp hi]
        exact run_infix_input hb cell n
      · refine ⟨⟨old, _⟩, mem_flatMap.mpr ⟨_, mem_singleton_self _, mem_map_of_mem hold⟩, hfound⟩

end Apiary.Runner
