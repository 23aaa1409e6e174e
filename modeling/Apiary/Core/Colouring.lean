import Mathlib.Data.List.Basic
import Mathlib.Logic.Relation

/-!
# Cycle detection by colouring

The search walks a graph depth first.  A node is grey while the nodes after it are
being explored and black once they are done; an edge to a grey node closes a
cycle.  When the search finds none, the black nodes in the order they were
finished list every node before its successors.
-/

namespace Apiary.Colouring

open List

variable {α : Type*} [DecidableEq α] (adj : α → List α)

/-- Explores the successors of a node; `gray` is the path that led to it and `black`
the finished nodes, the last one first.  The path never repeats a node, so `fuel`
is never used up as long as it exceeds the number of nodes. -/
def visit : ℕ → List α → List α → α → Except α (List α)
  | 0, _, _, node => .error node
  | fuel + 1, gray, black, node =>
    ((adj node).foldlM (fun black next =>
      if next ∈ node :: gray then .error next
      else if next ∈ black then .ok black
      else visit fuel (node :: gray) black next) black).map fun black => node :: black

/-- The finished nodes of a search from every node of a list, or a node on a cycle. -/
def finish (fuel : ℕ) (nodes : List α) : Except α (List α) :=
  nodes.foldlM (fun black node =>
    if node ∈ black then .ok black else visit adj fuel [] black node) []

variable {adj}

variable (adj) in
/-- A list of finished nodes: the successors of each one stand after it. -/
inductive Finished : List α → Prop where
  | nil : Finished []
  | cons {node : α} {black : List α} (hfresh : node ∉ black)
      (hnext : ∀ next ∈ adj node, next ∈ black) (hblack : Finished black) :
      Finished (node :: black)

/-- What exploring adds to the finished nodes. -/
structure Extends (adj : α → List α) (gray black black' : List α) : Prop where
  finished : Finished adj black'
  kept : ∀ x ∈ black, x ∈ black'
  disjoint : ∀ x ∈ gray, x ∉ black'

omit [DecidableEq α] in
theorem foldlM_extends {f : List α → α → Except α (List α)} {gray : List α}
    (hf : ∀ black next black', Extends adj gray black black → f black next = .ok black' →
      Extends adj gray black black' ∧ next ∈ black')
    {nexts black black' : List α} (hblack : Extends adj gray black black)
    (hrun : nexts.foldlM f black = .ok black') :
    Extends adj gray black black' ∧ ∀ next ∈ nexts, next ∈ black' := by
  induction nexts generalizing black with
  | nil =>
    cases hrun
    exact ⟨hblack, fun _ h => absurd h not_mem_nil⟩
  | cons next nexts ih =>
    rw [foldlM_cons] at hrun
    cases hfirst : f black next with
    | error =>
      rw [hfirst] at hrun
      cases hrun
    | ok mid =>
      rw [hfirst] at hrun
      obtain ⟨hmid, hnext⟩ := hf black next mid hblack hfirst
      obtain ⟨hlast, hnexts⟩ := ih ⟨hmid.finished, fun _ h => h, hmid.disjoint⟩ hrun
      refine ⟨⟨hlast.finished, fun x hx => hlast.kept x (hmid.kept x hx), hlast.disjoint⟩, ?_⟩
      intro x hx
      rcases mem_cons.mp hx with rfl | hx
      · exact hlast.kept x hnext
      · exact hnexts x hx

theorem visit_extends {fuel : ℕ} {gray black black' : List α} {node : α}
    (hgray : node ∉ gray) (hfresh : node ∉ black) (hblack : Extends adj gray black black)
    (hrun : visit adj fuel gray black node = .ok black') :
    Extends adj gray black black' ∧ node ∈ black' := by
  induction fuel generalizing gray black black' node with
  | zero => cases hrun
  | succ fuel ih =>
    rw [visit] at hrun
    cases hfold : (adj node).foldlM (fun black next =>
        if next ∈ node :: gray then .error next
        else if next ∈ black then .ok black
        else visit adj fuel (node :: gray) black next) black with
    | error c =>
      rw [hfold] at hrun
      cases hrun
    | ok mid =>
      rw [hfold] at hrun
      cases hrun
      -- while the successors are explored, the node itself is on the path
      have hstart : Extends adj (node :: gray) black black := by
        refine ⟨hblack.finished, hblack.kept, fun x hx => ?_⟩
        rcases mem_cons.mp hx with rfl | hx
        · exact hfresh
        · exact hblack.disjoint x hx
      obtain ⟨hmid, hnexts⟩ := foldlM_extends (fun black next black' hblack hstep => by
        split at hstep
        · cases hstep
        · rename_i hpath
          split at hstep
          · cases hstep
            exact ⟨hblack, ‹_›⟩
          · exact ih hpath ‹_› hblack hstep) hstart hfold
      have hnode := hmid.disjoint node mem_cons_self
      refine ⟨⟨.cons hnode hnexts hmid.finished, ?_, ?_⟩, mem_cons_self⟩
      · exact fun x hx => mem_cons_of_mem _ (hmid.kept x hx)
      · intro x hx hmem
        rcases mem_cons.mp hmem with rfl | hmem
        · exact hgray hx
        · exact hmid.disjoint x (mem_cons_of_mem _ hx) hmem

theorem finish_eq_ok {fuel : ℕ} {nodes black : List α} (hrun : finish adj fuel nodes = .ok black) :
    Finished adj black ∧ ∀ node ∈ nodes, node ∈ black := by
  have hstart : Extends adj ([] : List α) [] [] :=
    ⟨.nil, fun _ h => h, fun _ h => absurd h not_mem_nil⟩
  obtain ⟨hlast, hnodes⟩ := foldlM_extends (fun black node black' hblack hstep => by
    split at hstep
    · cases hstep
      exact ⟨hblack, ‹_›⟩
    · exact visit_extends not_mem_nil ‹_› hblack hstep) hstart hrun
  exact ⟨hlast.finished, hnodes⟩

omit [DecidableEq α] in
theorem Finished.closed {black : List α} (hblack : Finished adj black) {x y : α} (hy : y ∈ black)
    (hx : x ∈ adj y) : x ∈ black := by
  induction hblack with
  | nil => exact absurd hy not_mem_nil
  | cons _ hnext _ ih =>
    rcases mem_cons.mp hy with rfl | hy
    · exact mem_cons_of_mem _ (hnext x hx)
    · exact mem_cons_of_mem _ (ih hy)

omit [DecidableEq α] in
/-- Among the nodes with a property there is one that no other of them leads to. -/
theorem Finished.exists_first {black : List α} (hblack : Finished adj black) {p : α → Prop}
    (hsome : ∃ x ∈ black, p x) :
    ∃ x ∈ black, p x ∧ ∀ y ∈ black, x ∈ adj y → ¬ p y := by
  induction hblack with
  | nil =>
    obtain ⟨x, hx, -⟩ := hsome
    exact absurd hx not_mem_nil
  | @cons node black hfresh hnext hblack ih =>
    by_cases hnode : p node
    · -- nothing finished before it, nor the node itself, leads back to it
      refine ⟨node, mem_cons_self, hnode, ?_⟩
      intro y hy hlead
      rcases mem_cons.mp hy with rfl | hy
      · exact absurd (hnext y hlead) hfresh
      · exact absurd (hblack.closed hy hlead) hfresh
    · obtain ⟨x, hx, hpx⟩ := hsome
      have hx : x ∈ black := (mem_cons.mp hx).resolve_left fun h => hnode (h ▸ hpx)
      obtain ⟨y, hy, hpy, hfirst⟩ := ih ⟨x, hx, hpx⟩
      refine ⟨y, mem_cons_of_mem _ hy, hpy, ?_⟩
      intro z hz hlead
      rcases mem_cons.mp hz with rfl | hz
      · exact hnode
      · exact hfirst z hz hlead

/-! ## Errors are cycles -/

/-- A node that can be reached from itself. -/
def OnCycle (adj : α → List α) (node : α) : Prop :=
  Relation.TransGen (fun x y => y ∈ adj x) node node

/-- Two searches agree, and what they fail with has a property. -/
def Agree (p : α → Prop) (run run' : Except α (List α)) : Prop :=
  run = run' ∧ ∀ c, run = .error c → p c

omit [DecidableEq α] in
theorem Agree.map {p : α → Prop} {run run' : Except α (List α)} (hrun : Agree p run run')
    (f : List α → List α) : Agree p (run.map f) (run'.map f) := by
  obtain ⟨rfl, herror⟩ := hrun
  refine ⟨rfl, fun c hc => herror c ?_⟩
  cases run with
  | error => exact hc
  | ok => cases hc

omit [DecidableEq α] in
theorem foldlM_agree {p : α → Prop} {f g : List α → α → Except α (List α)} {nexts : List α}
    (hf : ∀ next ∈ nexts, ∀ black, Agree p (f black next) (g black next)) (black : List α) :
    Agree p (nexts.foldlM f black) (nexts.foldlM g black) := by
  induction nexts generalizing black with
  | nil => exact ⟨rfl, nofun⟩
  | cons next nexts ih =>
    obtain ⟨hfirst, hrest⟩ := forall_mem_cons.mp hf
    rw [foldlM_cons, foldlM_cons, ← (hfirst black).1]
    cases hnext : f black next with
    | error => exact ⟨rfl, fun c hc => (hfirst black).2 c (hnext.trans hc)⟩
    | ok black => exact ih hrest black

section Errors

variable {nodes : List α} (hnodes : ∀ x, adj x ⊆ nodes)

include hnodes

/-- The path to a node never repeats one, so more fuel than nodes is not used up. -/
theorem visit_agree {fuel fuel' : ℕ} {gray black : List α} {node : α}
    (hfuel : nodes.length < fuel + gray.length) (hle : fuel ≤ fuel')
    (hnodup : (node :: gray).Nodup) (hsub : node :: gray ⊆ nodes)
    (hpath : ∀ x ∈ gray, Relation.TransGen (fun x y => y ∈ adj x) x node) :
    Agree (OnCycle adj) (visit adj fuel gray black node) (visit adj fuel' gray black node) := by
  induction fuel generalizing fuel' gray black node with
  | zero =>
    have hlength := hnodup.length_le_of_subset hsub
    rw [length_cons] at hlength
    omega
  | succ fuel ih =>
    obtain ⟨fuel', rfl⟩ := Nat.exists_eq_succ_of_ne_zero (Nat.ne_zero_of_lt hle)
    rw [visit, visit]
    refine (foldlM_agree (fun next hnext black => ?_) black).map _
    have hpath : ∀ x ∈ node :: gray, Relation.TransGen (fun x y => y ∈ adj x) x next :=
      forall_mem_cons.mpr ⟨.single hnext, fun x hx => (hpath x hx).tail hnext⟩
    split
    · exact ⟨rfl, fun c hc => Except.error.inj hc ▸ hpath next ‹_›⟩
    · split
      · exact ⟨rfl, nofun⟩
      · refine ih ?_ (Nat.le_of_succ_le_succ hle) (nodup_cons.mpr ⟨‹_›, hnodup⟩)
          (cons_subset.mpr ⟨hnodes node hnext, hsub⟩) hpath
        rw [length_cons]
        omega

theorem finish_agree {fuel : ℕ} (hfuel : nodes.length < fuel) :
    Agree (OnCycle adj) (finish adj (nodes.length + 1) nodes) (finish adj fuel nodes) := by
  refine foldlM_agree (fun node hnode black => ?_) []
  split
  · exact ⟨rfl, nofun⟩
  · exact visit_agree hnodes (Nat.lt_succ_self _) hfuel (by simp) (by simpa using hnode) (by simp)

end Errors

omit [DecidableEq α] in
/-- No finished node is on a cycle. -/
theorem Finished.not_onCycle {black : List α} (hblack : Finished adj black) {x : α}
    (hx : x ∈ black) : ¬ OnCycle adj x := by
  intro hcycle
  obtain ⟨first, hfirst, hcycle, hnone⟩ := hblack.exists_first ⟨x, hx, hcycle⟩
  obtain ⟨last, hpath, hlead⟩ := Relation.TransGen.tail'_iff.mp hcycle
  refine hnone last ?_ hlead (Relation.TransGen.head' hlead hpath)
  clear hlead
  induction hpath with
  | refl => exact hfirst
  | tail _ hnext ih => exact hblack.closed ih hnext

end Apiary.Colouring
