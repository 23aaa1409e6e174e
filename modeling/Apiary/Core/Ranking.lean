import Apiary.Core.Machine
import Mathlib.Data.Prod.Lex
import Mathlib.Order.WellFounded

/-!
# Ranked machines

A rank in a well-founded order that no event of a run raises and that some
events lower.  In an endless run those events stop happening: this is how a loop
is shown to terminate when the environment may interleave events of its own.
-/

namespace Apiary.Machine

variable {S E : Type*} {step : S → E → Option S}

/-- A state for every point in time, with the event that leads to the next. -/
structure EndlessRun (step : S → E → Option S) where
  state : ℕ → S
  event : ℕ → E
  next : ∀ n, step (state n) (event n) = some (state (n + 1))

namespace EndlessRun

variable (run : EndlessRun step)

theorem invariant {inv : S → Prop} (hkept : ∀ s e s', inv s → step s e = some s' → inv s')
    (hstart : inv (run.state 0)) (n : ℕ) : inv (run.state n) := by
  induction n with
  | zero => exact hstart
  | succ n ih => exact hkept _ _ _ ih (run.next n)

variable {α : Type*} [Preorder α] {rank : S → α}

theorem antitone_rank (hle : ∀ n, rank (run.state (n + 1)) ≤ rank (run.state n)) :
    Antitone fun n => rank (run.state n) := antitone_nat_of_succ_le hle

/-- Events that lower the rank happen only finitely often. -/
theorem finally_still [WellFoundedLT α] (moves : E → Prop)
    (hle : ∀ n, rank (run.state (n + 1)) ≤ rank (run.state n))
    (hlt : ∀ n, moves (run.event n) → rank (run.state (n + 1)) < rank (run.state n)) :
    ∃ n, ∀ m, n ≤ m → ¬ moves (run.event m) := by
  obtain ⟨least, ⟨n, rfl⟩, hleast⟩ :=
    wellFounded_lt.has_min (Set.range fun n => rank (run.state n)) ⟨_, 0, rfl⟩
  refine ⟨n, fun m hm hmoves => ?_⟩
  apply hleast _ ⟨m + 1, rfl⟩
  calc rank (run.state (m + 1))
      < rank (run.state m) := hlt m hmoves
    _ ≤ rank (run.state n) := run.antitone_rank hle hm

end EndlessRun

/-! ## Lexicographic ranks -/

variable {α β : Type*} [PartialOrder α] [Preorder β] {a a' : α} {b b' : β}

theorem lex_lt_of_le_of_lt (ha : a ≤ a') (hb : b < b') : toLex (a, b) < toLex (a', b') := by
  rw [Prod.Lex.toLex_lt_toLex]
  rcases ha.lt_or_eq with hlt | heq
  · exact .inl hlt
  · exact .inr ⟨heq, hb⟩

theorem lex_lt_of_lt (ha : a < a') : toLex (a, b) < toLex (a', b') :=
  Prod.Lex.toLex_lt_toLex.mpr (.inl ha)

end Apiary.Machine
