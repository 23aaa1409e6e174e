import Mathlib.Data.List.Infix
import Mathlib.Data.List.Basic

/-!
# Texts that avoid a pattern

A text avoids a pattern when no part of it reads as the pattern, up to a map of
its letters.  A letter that the pattern does not have separates: no occurrence of
the pattern reaches across it.
-/

namespace Apiary

open List

section Position

variable {α : Type*} {pat left right : List α} {sep : α}

/-- An occurrence of a pattern without the letter `sep` starts and ends on one side
of any `sep`. -/
theorem isPrefix_drop_append_cons (hsep : sep ∉ pat) (i : ℕ) :
    pat <+: (left ++ sep :: right).drop i ↔ (i ≤ left.length ∧ pat <+: left.drop i) ∨
        (left.length < i ∧ pat <+: right.drop (i - left.length - 1)) := by
  rcases Nat.lt_or_ge left.length i with hright | hleft
  · have hdrop : (left ++ sep :: right).drop i = right.drop (i - left.length - 1) := by
      obtain ⟨k, rfl⟩ := Nat.exists_eq_add_of_lt hright
      have hsub : left.length + k + 1 - left.length - 1 = k := by omega
      rw [hsub, Nat.add_assoc, drop_append]
      simp
    rw [hdrop]
    simp [hright, Nat.not_le.mpr hright]
  · have hdrop : (left ++ sep :: right).drop i = left.drop i ++ sep :: right :=
      drop_append_of_le_length hleft
    rw [hdrop]
    constructor
    · intro hpat
      refine .inl ⟨hleft, ?_⟩
      rcases prefix_or_prefix_of_prefix hpat (prefix_append _ _) with hshort | hlong
      · exact hshort
      · -- a pattern longer than the left part would carry the separator
        obtain ⟨more, rfl⟩ := hlong
        cases more with
        | nil => simp
        | cons c more =>
          have hhead : c :: more <+: sep :: right := (prefix_append_right_inj _).mp hpat
          have hc : c = sep := (cons_prefix_cons.mp hhead).1
          exact absurd (by simp [hc]) hsep
    · rintro (⟨-, hpat⟩ | ⟨hlt, -⟩)
      · exact hpat.trans (prefix_append _ _)
      · exact absurd hlt (Nat.not_lt.mpr hleft)

theorem isInfix_iff_drop {text : List α} : pat <:+: text ↔ ∃ i, pat <+: text.drop i := by
  constructor
  · rintro ⟨before, after, rfl⟩
    exact ⟨before.length, after, by simp⟩
  · rintro ⟨i, hpat⟩
    exact hpat.isInfix.trans (drop_suffix i text).isInfix

theorem isInfix_append_cons (hsep : sep ∉ pat) :
    pat <:+: left ++ sep :: right ↔ pat <:+: left ∨ pat <:+: right := by
  constructor
  · intro hpat
    obtain ⟨i, hi⟩ := isInfix_iff_drop.mp hpat
    rcases (isPrefix_drop_append_cons hsep i).mp hi with ⟨-, hleft⟩ | ⟨-, hright⟩
    · exact .inl (isInfix_iff_drop.mpr ⟨_, hleft⟩)
    · exact .inr (isInfix_iff_drop.mpr ⟨_, hright⟩)
  · rintro (hleft | hright)
    · exact hleft.trans (prefix_append _ _).isInfix
    · exact hright.trans ((suffix_cons _ _).trans (suffix_append _ _)).isInfix

theorem framed_once_iff {before after : List α} (hsep : sep ∉ pat) (hpat : pat ≠ []) :
    (∀ i, pat <+: (before ++ sep :: (pat ++ sep :: after)).drop i ↔ i = before.length + 1) ↔
      ¬ pat <:+: before ∧ ¬ pat <:+: after := by
  simp only [isPrefix_drop_append_cons hsep]
  constructor
  · intro honce
    constructor
    · intro hbefore
      obtain ⟨i, hi⟩ := isInfix_iff_drop.mp hbefore
      have hle : i ≤ before.length := by
        by_contra hlt
        rw [drop_eq_nil_of_le (by omega), prefix_nil] at hi
        exact hpat hi
      have heq := (honce i).mp (.inl ⟨hle, hi⟩)
      omega
    · intro hafter
      obtain ⟨i, hi⟩ := isInfix_iff_drop.mp hafter
      have hsub : before.length + 1 + (pat.length + 1 + i) - before.length - 1 - pat.length - 1 = i := by
        omega
      have heq := (honce (before.length + 1 + (pat.length + 1 + i))).mp
        (.inr ⟨by omega, .inr ⟨by omega, by rwa [hsub]⟩⟩)
      omega
  · rintro ⟨hbefore, hafter⟩ i
    constructor
    · rintro (⟨-, hi⟩ | ⟨hlt, ⟨-, hi⟩ | ⟨-, hi⟩⟩)
      · exact absurd (isInfix_iff_drop.mpr ⟨i, hi⟩) hbefore
      · have hlength := hi.length_le
        have hpos := length_pos_iff.mpr hpat
        rw [length_drop] at hlength
        omega
      · exact absurd (isInfix_iff_drop.mpr ⟨_, hi⟩) hafter
    · rintro rfl
      refine .inr ⟨by omega, .inl ⟨by omega, ?_⟩⟩
      simp

end Position

section Avoids

variable {α β : Type*} (f : α → β) (pat : List β)

/-- No part of the text has the image `pat`. -/
def Avoids (text : List α) : Prop := ¬ pat <:+: text.map f

instance [DecidableEq β] (text : List α) : Decidable (Avoids f pat text) :=
  inferInstanceAs (Decidable (¬ pat <:+: text.map f))

variable {f pat} {text left right : List α}

theorem Avoids.of_infix (havoids : Avoids f pat text) (hpart : left <:+: text) :
    Avoids f pat left :=
  fun hpat => havoids (hpat.trans (hpart.map f))

/-- An avoiding text that grows by one letter can only come to end in the pattern. -/
theorem Avoids.concat (havoids : Avoids f pat text) {c : α}
    (hend : ¬ pat <:+ (text ++ [c]).map f) : Avoids f pat (text ++ [c]) := by
  intro hpat
  rw [map_append, map_singleton] at hpat hend
  rcases infix_concat_iff.mp hpat with hsuffix | hpart
  · exact hend hsuffix
  · exact havoids hpart

theorem avoids_append_cons {sep : α} (hsep : f sep ∉ pat) :
    Avoids f pat (left ++ sep :: right) ↔ Avoids f pat left ∧ Avoids f pat right := by
  simp only [Avoids, map_append, map_cons, isInfix_append_cons hsep, not_or]

end Avoids

end Apiary
