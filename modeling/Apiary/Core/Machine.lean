import Mathlib.Data.List.Basic

/-!
# Event machines

A concurrent program is embedded as a partial function `step : S → E → Option S`.
The event fixes every choice the environment makes (which thread moves, what an
external call returns, what the clock reads), so the function itself is
deterministic and executable; `none` means that the event is not possible in the
state.  A run is a list of events.

The rules below turn a fact about one step into a fact about every run.  A
`Guarded` run is one whose every step meets a condition on the state before the
step, which is how a guarantee that needs such a condition is stated.
-/

namespace Apiary.Machine

variable {S E : Type*} (step : S → E → Option S)

/-- The state after the events of a run, or `none` when one of them was not
possible. -/
def exec : S → List E → Option S
  | s, [] => some s
  | s, e :: es => (step s e).bind fun s' => exec s' es

/-- Every step of the run meets `guard` in the state before it. -/
def Guarded (guard : S → E → Prop) : S → List E → Prop
  | _, [] => True
  | s, e :: es => guard s e ∧ ∀ s' ∈ step s e, Guarded guard s' es

def Guarded.decidable {guard : S → E → Prop} [∀ s e, Decidable (guard s e)] :
    (s : S) → (es : List E) → Decidable (Guarded step guard s es)
  | _, [] => isTrue trivial
  | s, e :: es =>
    have : ∀ s', Decidable (Guarded step guard s' es) := fun s' => Guarded.decidable s' es
    inferInstanceAs (Decidable (guard s e ∧ ∀ s' ∈ step s e, Guarded step guard s' es))

instance {guard : S → E → Prop} [∀ s e, Decidable (guard s e)] (s : S) (es : List E) :
    Decidable (Guarded step guard s es) := Guarded.decidable step s es

variable {step}

@[simp]
theorem exec_nil (s : S) : exec step s [] = some s := rfl

theorem exec_cons (s : S) (e : E) (es : List E) :
    exec step s (e :: es) = (step s e).bind fun s' => exec step s' es := rfl

theorem exec_cons_eq_some {s t : S} {e : E} {es : List E} : exec step s (e :: es) = some t ↔
      ∃ s', step s e = some s' ∧ exec step s' es = some t := by
  simp [exec_cons, Option.bind_eq_some_iff]

/-- The state that a possible run ends in. -/
theorem exec_get {s : S} {es : List E} (hsome : (exec step s es).isSome = true) :
    exec step s es = some ((exec step s es).get hsome) :=
  (Option.some_get hsome).symm

/-- A property that holds at the start and that every guarded step preserves
holds after every guarded run. -/
theorem exec_invariant {guard : S → E → Prop} {inv : S → Prop}
    (hstep : ∀ s e s', inv s → guard s e → step s e = some s' → inv s')
    {s t : S} {es : List E} (hs : inv s) (hguard : Guarded step guard s es)
    (hrun : exec step s es = some t) : inv t := by
  induction es generalizing s with
  | nil =>
    rw [exec_nil, Option.some.injEq] at hrun
    exact hrun ▸ hs
  | cons e es ih =>
    obtain ⟨s', hs', hrest⟩ := exec_cons_eq_some.mp hrun
    exact ih (hstep s e s' hs hguard.1 hs') (hguard.2 s' hs') hrest

/-- The condition on a run in two parts. -/
theorem guarded_append {guard : S → E → Prop} {s m : S} {es es' : List E}
    (hguard : Guarded step guard s (es ++ es')) (hrun : exec step s es = some m) :
    Guarded step guard s es ∧ Guarded step guard m es' := by
  induction es generalizing s with
  | nil =>
    rw [exec_nil, Option.some.injEq] at hrun
    exact ⟨trivial, hrun ▸ hguard⟩
  | cons e es ih =>
    obtain ⟨s', hs', hrest⟩ := exec_cons_eq_some.mp hrun
    have htail := ih (hguard.2 s' hs') hrest
    refine ⟨⟨hguard.1, ?_⟩, htail.2⟩
    intro s'' hs''
    rw [hs', Option.mem_some_iff] at hs''
    exact hs'' ▸ htail.1

theorem guarded_of_forall {guard : S → E → Prop} (hall : ∀ s e, guard s e)
    (s : S) (es : List E) : Guarded step guard s es := by
  induction es generalizing s with
  | nil => trivial
  | cons e es ih => exact ⟨hall s e, fun s' _ => ih s'⟩

theorem guarded_of_events {cond : E → Prop} {es : List E} (hall : ∀ e ∈ es, cond e) (s : S) :
    Guarded step (fun _ e => cond e) s es := by
  induction es generalizing s with
  | nil => trivial
  | cons e es ih =>
    exact ⟨hall e List.mem_cons_self, fun s' _ => ih (fun e he => hall e (List.mem_cons_of_mem _ he)) s'⟩

theorem exec_invariant_of_step {inv : S → Prop}
    (hstep : ∀ s e s', inv s → step s e = some s' → inv s')
    {s t : S} {es : List E} (hs : inv s) (hrun : exec step s es = some t) : inv t :=
  exec_invariant (fun s e s' h _ => hstep s e s' h) hs
    (guarded_of_forall (fun _ _ => trivial) s es : Guarded step (fun _ _ => True) s es) hrun

end Apiary.Machine
