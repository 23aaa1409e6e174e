import Mathlib.Data.List.Induction
import Mathlib.Data.List.Nodup
import Mathlib.Logic.Function.Basic

/-!
# The last entry of each key

A map filled from a list, in which a later entry replaces an earlier one of the same
key, together with the keys in the order they were first seen.
-/

namespace Apiary

structure Latest (K V : Type*) where
  value : K → Option V
  order : List K

namespace Latest

variable {K V : Type*} [DecidableEq K] (key : V → K)

def add (m : Latest K V) (x : V) : Latest K V where
  value := Function.update m.value (key x) (some x)
  order := if (m.value (key x)).isSome then m.order else m.order ++ [key x]

def ofList (xs : List V) : Latest K V := xs.foldl (add key) { value := fun _ => none, order := [] }

theorem ofList_append_singleton (xs : List V) (x : V) :
    ofList key (xs ++ [x]) = (ofList key xs).add key x := by
  rw [ofList, List.foldl_append]
  rfl

theorem value_ofList (xs : List V) (k : K) :
    (ofList key xs).value k = (xs.filter fun x => key x = k).getLast? := by
  induction xs using List.reverseRecOn with
  | nil => rfl
  | append_singleton xs x ih =>
    rw [ofList_append_singleton, List.filter_append, add]
    by_cases hk : key x = k
    · simp [hk]
    · simp [hk, Function.update_of_ne (Ne.symm hk), ih]

theorem mem_order_ofList {xs : List V} {k : K} :
    k ∈ (ofList key xs).order ↔ ((ofList key xs).value k).isSome = true := by
  induction xs using List.reverseRecOn with
  | nil => simp [ofList]
  | append_singleton xs x ih =>
    rw [ofList_append_singleton, add]
    dsimp only
    by_cases hk : k = key x
    · subst hk
      rw [Function.update_self]
      split_ifs with hseen
      · exact iff_of_true (ih.mpr hseen) rfl
      · simp
    · rw [Function.update_of_ne hk]
      split
      · exact ih
      · simp [hk, ih]

theorem nodup_order_ofList (xs : List V) : (ofList key xs).order.Nodup := by
  induction xs using List.reverseRecOn with
  | nil => exact List.nodup_nil
  | append_singleton xs x ih =>
    rw [ofList_append_singleton, add]
    dsimp only
    split_ifs with hfresh
    · exact ih
    · have hnew : key x ∉ (ofList key xs).order := fun hmem => hfresh ((mem_order_ofList key).mp hmem)
      rw [← List.concat_eq_append]
      exact .concat hnew ih

end Latest

end Apiary
