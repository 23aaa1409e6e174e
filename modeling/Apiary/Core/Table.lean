import Mathlib.Data.List.Nodup
import Mathlib.Data.List.Perm.Basic

/-!
# Tables

A database table is a list of rows in insertion order.  An `UPDATE` with a `WHERE`
clause maps the rows that meet the clause and leaves the others where they are, and a
unique column is a column without repetitions.
-/

namespace Apiary.Table

open List

variable {α β : Type*}

/-- Applies `f` to the rows that meet `p`. -/
def update (p : α → Bool) (f : α → α) (rows : List α) : List α :=
  rows.map fun r => if p r then f r else r

variable {p : α → Bool} {f : α → α} {rows : List α}

theorem mem_update {r : α} : r ∈ update p f rows ↔ ∃ r₀ ∈ rows, (if p r₀ then f r₀ else r₀) = r :=
  mem_map

theorem forall_update {q : α → Prop} (hhit : ∀ r ∈ rows, p r = true → q (f r))
    (hmiss : ∀ r ∈ rows, q r) : ∀ r ∈ update p f rows, q r := by
  intro r hr
  obtain ⟨r₀, hr₀, rfl⟩ := mem_update.mp hr
  split
  · exact hhit r₀ hr₀ ‹_›
  · exact hmiss r₀ hr₀

/-- A column that the update does not write. -/
theorem map_update {g : α → β} (hkept : ∀ r, p r = true → g (f r) = g r) :
    (update p f rows).map g = rows.map g := by
  rw [update, map_map]
  apply map_congr_left
  intro r _
  change g (if p r then f r else r) = g r
  split
  · exact hkept r ‹_›
  · rfl

theorem nodup_update {key : α → β} (hkeys : (rows.map key).Nodup)
    (hkept : ∀ r, p r = true → key (f r) = key r) : ((update p f rows).map key).Nodup := by
  rw [map_update hkept]
  exact hkeys

theorem forall_insert {q : α → Prop} {r : α} (hold : ∀ r' ∈ rows, q r') (hnew : q r) :
    ∀ r' ∈ rows ++ [r], q r' :=
  forall_mem_append.mpr ⟨hold, forall_mem_singleton.mpr hnew⟩

theorem nodup_concat_map {key : α → β} {r : α} (hkeys : (rows.map key).Nodup)
    (hnew : ∀ r' ∈ rows, key r' ≠ key r) : ((rows ++ [r]).map key).Nodup := by
  rw [map_append, map_singleton, ← concat_eq_append]
  exact .concat (by simpa using hnew) hkeys

theorem exists_key_update {key : α → β} {k : β} (hkept : ∀ r, key (f r) = key r)
    (hkey : ∃ r ∈ rows, key r = k) : ∃ r ∈ update p f rows, key r = k := by
  rw [← List.mem_map] at hkey ⊢
  rwa [map_update fun r _ => hkept r]

theorem countP_update_le {q : α → Bool}
    (hnone : ∀ r ∈ rows, p r = true → q (f r) = true → q r = true) :
    (update p f rows).countP q ≤ rows.countP q := by
  rw [update, countP_map]
  apply countP_mono_left
  intro r hr hq
  change q (if p r then f r else r) = true at hq
  split at hq
  · exact hnone r hr ‹_› hq
  · exact hq

theorem countP_set {i : ℕ} {a : α} (hat : rows[i]? = some a) (q : α → Bool) (b : α) :
    (rows.set i b).countP q + (q a).toNat = rows.countP q + (q b).toNat := by
  obtain ⟨hlt, rfl⟩ := List.getElem?_eq_some_iff.mp hat
  rw [List.countP_set hlt]
  have hpos : q rows[i] = true → 0 < rows.countP q := fun h =>
    countP_pos_iff.mpr ⟨_, getElem_mem hlt, h⟩
  cases hold : q rows[i] <;> cases hnew : q b <;> simp_all

theorem countP_eraseIdx {i : ℕ} {a : α} (hat : rows[i]? = some a) (q : α → Bool) :
    (rows.eraseIdx i).countP q + (q a).toNat = rows.countP q := by
  obtain ⟨hlt, rfl⟩ := List.getElem?_eq_some_iff.mp hat
  rw [← (getElem_cons_eraseIdx_perm hlt).countP_eq q, countP_cons]
  cases q rows[i] <;> rfl

/-- At most one row meets the criterion. -/
theorem countP_le_one_iff {q : α → Bool} : rows.countP q ≤ 1 ↔
    ∀ (i j : ℕ) (a b : α), rows[i]? = some a → rows[j]? = some b → q a = true → q b = true →
      i = j := by
  induction rows with
  | nil => simp
  | cons r rows ih =>
    rw [countP_cons]
    by_cases hr : q r = true
    · have hnone : rows.countP q + 1 ≤ 1 ↔ ∀ c ∈ rows, ¬ q c = true := by
        rw [Nat.succ_le_succ_iff, Nat.le_zero, countP_eq_zero]
      rw [if_pos hr, hnone]
      constructor
      · intro hnone i j a b hi hj ha hb
        have hzero : ∀ (k : ℕ) (c : α), (r :: rows)[k]? = some c → q c = true → k = 0 := by
          intro k c hc hq
          cases k with
          | zero => rfl
          | succ => exact absurd hq (hnone c (mem_of_getElem? hc))
        rw [hzero i a hi ha, hzero j b hj hb]
      · intro hsame c hc hq
        obtain ⟨k, hk⟩ := mem_iff_getElem?.mp hc
        have hzero : k + 1 = 0 := hsame (k + 1) 0 c r hk rfl hq hr
        cases hzero
    · rw [if_neg hr, Nat.add_zero, ih]
      constructor
      · intro hsame i j a b hi hj ha hb
        cases i with
        | zero =>
          rw [getElem?_cons_zero, Option.some.injEq] at hi
          exact absurd (hi ▸ ha) hr
        | succ i =>
          cases j with
          | zero =>
            rw [getElem?_cons_zero, Option.some.injEq] at hj
            exact absurd (hj ▸ hb) hr
          | succ j => exact congrArg Nat.succ (hsame i j a b hi hj ha hb)
      · intro hsame i j a b hi hj ha hb
        exact Nat.succ.inj (hsame (i + 1) (j + 1) a b hi hj ha hb)

theorem index_of_key {key : α → β} (hkeys : (rows.map key).Nodup) {i j : ℕ} {a b : α}
    (ha : rows[i]? = some a) (hb : rows[j]? = some b) (hkey : key a = key b) : i = j := by
  obtain ⟨hlt, -⟩ := List.getElem?_eq_some_iff.mp ha
  apply (getElem?_inj (length_map key ▸ hlt) hkeys).mp
  rw [getElem?_map, getElem?_map, ha, hb, Option.map_some, Option.map_some, hkey]

theorem mem_set {i : ℕ} {a b : α} (hb : b ∈ rows.set i a) :
    b = a ∨ ∃ j, j ≠ i ∧ rows[j]? = some b := by
  obtain ⟨j, hj⟩ := mem_iff_getElem?.mp hb
  by_cases heq : i = j
  · rw [getElem?_set, if_pos heq] at hj
    obtain ⟨-, hj⟩ := Option.ite_none_right_eq_some.mp hj
    exact .inl (Option.some.inj hj).symm
  · rw [getElem?_set_ne heq] at hj
    exact .inr ⟨j, Ne.symm heq, hj⟩

theorem filter_update {q : α → Bool} (hkept : ∀ r, p r = true → q (f r) = q r) :
    (update p f rows).filter q = update p f (rows.filter q) := by
  rw [update, update, filter_map]
  congr 1
  apply filter_congr
  intro r _
  change q (if p r then f r else r) = q r
  split
  · exact hkept r ‹_›
  · rfl

theorem update_eq_self (hnone : ∀ r ∈ rows, p r = false) : update p f rows = rows := by
  rw [update]
  calc rows.map (fun r => if p r then f r else r)
      = rows.map id := map_congr_left fun r hr => by simp [hnone r hr]
    _ = rows := map_id rows

/-- With a unique column, the row that has a given value in it. -/
theorem eq_of_key {key : α → β} (hkeys : (rows.map key).Nodup) {r r' : α} (hr : r ∈ rows)
    (hr' : r' ∈ rows) (hkey : key r = key r') : r = r' :=
  inj_on_of_nodup_map hkeys hr hr' hkey

theorem update_one {key : α → β} (hkeys : (rows.map key).Nodup) {r : α} (hr : r ∈ rows)
    (hp : p r = true) (honly : ∀ x ∈ rows, p x = true → key x = key r) :
    ∃ before after, rows = before ++ r :: after ∧ update p f rows = before ++ f r :: after := by
  obtain ⟨before, after, rfl⟩ := append_of_mem hr
  have hother : ∀ x ∈ before ++ after, p x = false := by
    intro x hx
    by_contra htrue
    have hmem : x ∈ before ++ r :: after := by
      rw [mem_append] at hx ⊢
      exact hx.imp_right (mem_cons_of_mem r)
    have hkey := honly x hmem (by simpa using htrue)
    rw [map_append, map_cons, nodup_middle, nodup_cons] at hkeys
    refine hkeys.1 ?_
    rw [← map_append, ← hkey]
    exact mem_map_of_mem hx
  refine ⟨before, after, rfl, ?_⟩
  have hbefore : update p f before = before :=
    update_eq_self fun x hx => hother x (mem_append_left _ hx)
  have hafter : update p f after = after :=
    update_eq_self fun x hx => hother x (mem_append_right _ hx)
  calc update p f (before ++ r :: after)
      = update p f before ++ f r :: update p f after := by simp [update, hp]
    _ = before ++ f r :: after := by rw [hbefore, hafter]

end Apiary.Table
