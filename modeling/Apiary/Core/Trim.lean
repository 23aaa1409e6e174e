import Apiary.Core.Text
import Mathlib.Data.List.DropRight
import Mathlib.Data.List.TakeWhile

/-!
# Trimming around a letter that stays

Dropping letters from one end of a text stops at the first letter that fails the test,
whatever lies behind it.
-/

namespace Apiary

open List

variable {α : Type*} {p : α → Bool} {c : α}

theorem dropWhile_append_cons (hc : p c = false) (x y : List α) :
    (x ++ c :: y).dropWhile p = x.dropWhile p ++ c :: y := by
  induction x with
  | nil => simp [hc]
  | cons d x ih => by_cases hd : p d = true <;> simp [hd, ih]

theorem rdropWhile_append_concat (hc : p c = false) (x y : List α) :
    (x ++ [c] ++ y).rdropWhile p = x ++ [c] ++ y.rdropWhile p := by
  rw [List.rdropWhile, List.rdropWhile]
  have hreverse : (x ++ [c] ++ y).reverse = y.reverse ++ c :: x.reverse := by simp
  rw [hreverse, dropWhile_append_cons hc]
  simp

/-- The letter that stops the dropping fails the test. -/
theorem head_dropWhile {l : List α} (hhead : (l.dropWhile p).head? = some c) : p c = false := by
  have hnot := head?_dropWhile_not p l
  rw [hhead] at hnot
  simpa using hnot

/-- Letters that pass the test, up to the first one that fails it. -/
theorem span_append {first rest : List α} (hfirst : ∀ d ∈ first, p d = true)
    (hrest : ∀ d, rest.head? = some d → p d = false) :
    (first ++ rest).takeWhile p = first ∧ (first ++ rest).dropWhile p = rest := by
  rw [takeWhile_append_of_pos hfirst, dropWhile_append_of_pos hfirst]
  cases rest with
  | nil => exact ⟨append_nil first, rfl⟩
  | cons d =>
    have hd : p d = false := hrest d rfl
    rw [takeWhile_cons_of_neg (by simp [hd]), dropWhile_cons_of_neg (by simp [hd])]
    exact ⟨append_nil first, rfl⟩

/-- A text is cut at the first occurrence of a letter. -/
theorem append_cons_inj {x x' y y' : List α} (hx : c ∉ x) (hx' : c ∉ x')
    (heq : x ++ c :: y = x' ++ c :: y') : x = x' ∧ y = y' := by
  induction x generalizing x' with
  | nil =>
    cases x' with
    | nil => simpa using heq
    | cons =>
      simp only [nil_append, cons_append, List.cons.injEq] at heq
      exact absurd (heq.1 ▸ mem_cons_self) hx'
  | cons d x ih =>
    cases x' with
    | nil =>
      simp only [nil_append, cons_append, List.cons.injEq] at heq
      exact absurd (heq.1 ▸ mem_cons_self) hx
    | cons =>
      simp only [cons_append, List.cons.injEq, mem_cons, not_or] at heq hx hx'
      have hrest := ih hx.2 hx'.2 heq.2
      exact ⟨by rw [heq.1, hrest.1], hrest.2⟩

theorem append_cons_inj_last {x x' y y' : List α} (hy : c ∉ y) (hy' : c ∉ y')
    (heq : x ++ c :: y = x' ++ c :: y') : x = x' ∧ y = y' := by
  have hreverse : y.reverse ++ c :: x.reverse = y'.reverse ++ c :: x'.reverse := by
    simpa using congrArg List.reverse heq
  have hcut := append_cons_inj (by simpa using hy) (by simpa using hy') hreverse
  exact ⟨reverse_injective hcut.2, reverse_injective hcut.1⟩

/-- What is left of a trimmed text stands in it. -/
theorem trimSpace_infix_self (s : List Char) : trimSpace s <:+: s :=
  ( rdropWhile_prefix isSpace _).isInfix.trans (dropWhile_suffix isSpace).isInfix

end Apiary
