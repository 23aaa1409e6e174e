import Mathlib.Data.Finset.Card
import Mathlib.Logic.Relation

/-!
# Depth-first marking

A recursive search that marks a node and then its successors, skipping the nodes
already marked.  The recursion carries fuel; with more fuel than there are
unmarked nodes the marked set is exactly what the start node reaches.
-/

namespace Apiary.Marking

open List

variable {fuel : ℕ}

variable {α : Type*} [DecidableEq α] (succ : α → List α)

def mark : ℕ → α → List α → List α
  | 0, _, seen => seen
  | fuel + 1, a, seen =>
    if a ∈ seen then seen
    else (succ a).foldl (fun seen b => mark fuel b seen) (a :: seen)

/-- `b` can be reached from `a` along successors, in any number of steps. -/
def Reaches (a b : α) : Prop := Relation.ReflTransGen (fun x y => y ∈ succ x) a b

variable {succ}

omit [DecidableEq α] in
theorem mem_foldl {f : List α → α → List α} {x : α} (added : α → Prop)
    (hf : ∀ seen b, x ∈ f seen b → x ∈ seen ∨ added b) {bs seen : List α}
    (hx : x ∈ bs.foldl f seen) : x ∈ seen ∨ ∃ b ∈ bs, added b := by
  induction bs generalizing seen with
  | nil => exact .inl hx
  | cons b bs ih =>
    rcases ih hx with hmem | ⟨b', hb', hadded⟩
    · rcases hf seen b hmem with hseen | hadded
      · exact .inl hseen
      · exact .inr ⟨b, mem_cons_self, hadded⟩
    · exact .inr ⟨b', mem_cons_of_mem b hb', hadded⟩

/-- Only reachable nodes are added. -/
theorem mark_sound {a x : α} {seen : List α} (hx : x ∈ mark succ fuel a seen) :
    x ∈ seen ∨ Reaches succ a x := by
  induction fuel generalizing a seen with
  | zero => exact .inl hx
  | succ fuel ih =>
    by_cases ha : a ∈ seen
    · exact .inl (by simpa [mark, ha] using hx)
    · simp only [mark, ha, if_false] at hx
      rcases mem_foldl (fun b => Reaches succ b x) (fun _ _ => ih) hx with
        hmem | ⟨b, hb, hreach⟩
      · rcases mem_cons.mp hmem with rfl | hmem
        · exact .inr Relation.ReflTransGen.refl
        · exact .inl hmem
      · exact .inr (Relation.ReflTransGen.head hb hreach)

section Complete

variable (nodes : Finset α)

/-- The nodes a search has still to mark. -/
def unmarked (seen : List α) : Finset α := nodes.filter fun x => x ∉ seen

variable {nodes}

theorem card_unmarked_le {seen seen' : List α} (hsub : seen ⊆ seen') :
    (unmarked nodes seen').card ≤ (unmarked nodes seen).card := by
  refine Finset.card_le_card fun x hx => ?_
  simp only [unmarked, Finset.mem_filter] at hx ⊢
  exact ⟨hx.1, fun hmem => hx.2 (hsub hmem)⟩

theorem card_unmarked_cons_lt {a : α} {seen : List α} (ha : a ∈ nodes) (hseen : a ∉ seen) :
    (unmarked nodes (a :: seen)).card < (unmarked nodes seen).card := by
  refine Finset.card_lt_card ((Finset.ssubset_iff_of_subset fun x hx => ?_).mpr ⟨a, ?_, ?_⟩)
  · simp only [unmarked, Finset.mem_filter, mem_cons, not_or] at hx ⊢
    exact ⟨hx.1, hx.2.2⟩
  · simp [unmarked, ha, hseen]
  · simp [unmarked]

/-- What a search adds to the marked nodes is closed under successors. -/
structure Closes (succ : α → List α) (seen out : List α) : Prop where
  subset : seen ⊆ out
  closed : ∀ x ∈ out, x ∉ seen → ∀ y ∈ succ x, y ∈ out

theorem Closes.trans {seen mid out : List α} (hfirst : Closes succ seen mid)
    (hsecond : Closes succ mid out) : Closes succ seen out where
  subset := Subset.trans hfirst.subset hsecond.subset
  closed := by
    intro x hx hseen y hy
    by_cases hmid : x ∈ mid
    · exact hsecond.subset (hfirst.closed x hmid hseen y hy)
    · exact hsecond.closed x hx hmid y hy

theorem foldl_closes {bs : List α} {seen : List α}
    (hmark : ∀ b ∈ bs, ∀ seen, (unmarked nodes seen).card < fuel →
      b ∈ mark succ fuel b seen ∧ Closes succ seen (mark succ fuel b seen))
    (hfuel : (unmarked nodes seen).card < fuel) :
    bs ⊆ bs.foldl (fun seen b => mark succ fuel b seen) seen ∧
      Closes succ seen (bs.foldl (fun seen b => mark succ fuel b seen) seen) := by
  induction bs generalizing seen with
  | nil => exact ⟨nil_subset _, Subset.refl seen, fun x hx hseen => absurd hx hseen⟩
  | cons b bs ih =>
    obtain ⟨hb, hcloses⟩ := hmark b mem_cons_self seen hfuel
    obtain ⟨hbs, hrest⟩ := ih (fun b' hb' => hmark b' (mem_cons_of_mem b hb'))
      ((card_unmarked_le hcloses.subset).trans_lt hfuel)
    exact ⟨cons_subset.mpr ⟨hrest.subset hb, hbs⟩, hcloses.trans hrest⟩

/-- With more fuel than unmarked nodes a search marks its start node and closes
what it adds under successors. -/
theorem mark_closes (hnodes : ∀ x ∈ nodes, ∀ y ∈ succ x, y ∈ nodes) {a : α} {seen : List α}
    (ha : a ∈ nodes) (hfuel : (unmarked nodes seen).card < fuel) :
    a ∈ mark succ fuel a seen ∧ Closes succ seen (mark succ fuel a seen) := by
  induction fuel generalizing a seen with
  | zero => exact absurd hfuel (Nat.not_lt_zero _)
  | succ fuel ih =>
    by_cases hseen : a ∈ seen
    · rw [mark, if_pos hseen]
      exact ⟨hseen, Subset.refl seen, fun x hx hx' => absurd hx hx'⟩
    · rw [mark, if_neg hseen]
      obtain ⟨hsucc, hcloses⟩ :=
        foldl_closes (fun b hb _ => ih (hnodes a ha b hb))
          (lt_of_lt_of_le (card_unmarked_cons_lt ha hseen) (Nat.lt_succ_iff.mp hfuel))
      refine ⟨hcloses.subset mem_cons_self,
        Subset.trans (subset_cons_self a seen) hcloses.subset, ?_⟩
      intro x hx hxseen y hy
      by_cases hxa : x = a
      · exact hsucc (hxa ▸ hy)
      · exact hcloses.closed x hx (by simp [hxa, hxseen]) y hy

theorem mem_mark_iff (hnodes : ∀ x ∈ nodes, ∀ y ∈ succ x, y ∈ nodes) {a b : α} (ha : a ∈ nodes)
    (hfuel : nodes.card < fuel) : b ∈ mark succ fuel a [] ↔ Reaches succ a b := by
  constructor
  · intro hb
    exact (mark_sound hb).resolve_left (not_mem_nil)
  · intro hreach
    obtain ⟨hstart, hcloses⟩ :=
      mark_closes hnodes ha ((Finset.card_filter_le _ fun x => x ∉ []).trans_lt hfuel)
    induction hreach with
    | refl => exact hstart
    | tail _ hstep ih => exact hcloses.closed _ ih not_mem_nil _ hstep

end Complete

end Apiary.Marking
