import Mathlib.Data.List.Induction
import Mathlib.Data.List.Perm.Basic

/-!
# Inputs of sub-workflows

The placeholders of a template are replaced by one `strings.ReplaceAll` after the other, over a
map of inputs, in the text that the earlier ones have left.  A template is read as text with
placeholders; the substitution is simultaneous when each replacement finds those placeholders
and nothing else.
-/

namespace Apiary.Workflow.Inputs

open List

/-- An input, as `renderValue` writes its value. -/
structure Input where
  name : List Char
  value : List Char

/-- The two arguments of a `ReplaceAll`. -/
structure Replacement where
  old : List Char
  new : List Char
  deriving DecidableEq

/-- The placeholders of an input, with blanks and without. -/
def spellings (name : List Char) : List (List Char) :=
  ["$\x7b\x7b inputs.".toList ++ name ++ " \x7d\x7d".toList,
    "$\x7b\x7binputs.".toList ++ name ++ "\x7d\x7d".toList]

/-- The replacements of the loop over the inputs, in its order. -/
def replacements (order : List Input) : List Replacement :=
  order.flatMap fun i => (spellings i.name).map fun old => ⟨old, i.value⟩

/-- What `ReplaceAll` finds from left to right: the occurrences of `old`, and the characters
that it copies.  `skip` characters are left of the last occurrence. -/
def findAll (old : List Char) : ℕ → List Char → List (Option Char)
  | _, [] => []
  | skip + 1, _ :: cs => findAll old skip cs
  | 0, c :: cs =>
    if old.isPrefixOf (c :: cs) then none :: findAll old (old.length - 1) cs
    else some c :: findAll old 0 cs

def replaceAll (value : List Char) (r : Replacement) : List Char :=
  (findAll r.old 0 value).flatMap fun found => found.elim r.new fun c => [c]

def renderInputString (value : List Char) (order : List Input) : List Char :=
  (replacements order).foldl replaceAll value

/-! ## Reading a template -/

inductive Piece where
  | char (c : Char)
  | hole (r : Replacement)
  deriving DecidableEq

/-- The text of a piece once the replacements `done` are made. -/
def Piece.text (done : List Replacement) : Piece → List Char
  | .char c => [c]
  | .hole r => if r ∈ done then r.new else r.old

def fill (done : List Replacement) (reading : List Piece) : List Char :=
  reading.flatMap (Piece.text done)

/-- A placeholder of the replacement that is not filled. -/
def Piece.isOpen (r : Replacement) (done : List Replacement) (p : Piece) : Bool :=
  p = .hole r && r ∉ done

/-- What a replacement should find in a piece. -/
def Piece.seenBy (r : Replacement) (done : List Replacement) (p : Piece) : List (Option Char) :=
  if p.isOpen r done then [none] else (p.text done).map some

/-- The loop expands the placeholders of the template, and nothing in the text that it has put
in for others: in every order of the inputs, each replacement finds its placeholders and nothing
else in the text that those before it have left. -/
def Simultaneous (inputs : List Input) (template : List Char) : Prop :=
  ∃ reading, fill [] reading = template ∧
    ∀ order, order.Perm inputs → ∀ done r rest, replacements order = done ++ r :: rest →
      findAll r.old 0 (done.foldl replaceAll template) = reading.flatMap (Piece.seenBy r done)

/-- In the template with some placeholders filled, the spelling of `r` starts at no character of
the text, of a value or of another placeholder. -/
def StandsOut (r : Replacement) (done : List Replacement) (reading : List Piece) : Prop :=
  ∀ left p right, reading = left ++ p :: right → p.isOpen r done = false →
    ∀ before after, p.text done = before ++ after → after ≠ [] →
      ¬ r.old <+: after ++ fill done right

/-- With the values of any inputs that can come first put in for their placeholders, the
placeholders of every other input are spelled only where the template spells them. -/
def Separate (inputs : List Input) (template : List Char) : Prop :=
  ∃ reading, fill [] reading = template ∧
    ∀ order, order.Perm inputs → ∀ done r rest, replacements order = done ++ r :: rest →
      StandsOut r done reading

variable {inputs order : List Input} {template : List Char} {reading : List Piece}
  {done done' rest : List Replacement} {r : Replacement}

/-! ## What a replacement finds -/

/-- Characters that are copied. -/
theorem flatMap_copied (new text : List Char) :
    (text.map some).flatMap (fun found => found.elim new fun c => [c]) = text := by
  simp [flatMap_map]

theorem findAll_self {old : List Char} (hold : old ≠ []) (cs : List Char) :
    findAll old 0 (old ++ cs) = none :: findAll old 0 cs := by
  have hskip : ∀ xs : List Char, findAll old xs.length (xs ++ cs) = findAll old 0 cs := by
    intro xs
    induction xs with
    | nil => rfl
    | cons x xs ih => rwa [length_cons, cons_append, findAll]
  obtain ⟨c, xs, rfl⟩ := exists_cons_of_ne_nil hold
  have hstart : (c :: xs).isPrefixOf (c :: (xs ++ cs)) = true :=
    isPrefixOf_iff_prefix.mpr (prefix_append (c :: xs) cs)
  rw [cons_append, findAll, if_pos hstart, length_cons, Nat.add_sub_cancel, hskip]

/-- A text is copied character by character when no occurrence starts in it. -/
theorem findAll_copied_iff (old text cs : List Char) (found : List (Option Char)) :
    findAll old 0 (text ++ cs) = text.map some ++ found ↔
      (∀ before after, text = before ++ after → after ≠ [] → ¬ old <+: after ++ cs) ∧
        findAll old 0 cs = found := by
  induction text with
  | nil => simp
  | cons c text ih =>
    have hsplit : (∀ before after, c :: text = before ++ after → after ≠ [] →
        ¬ old <+: after ++ cs) ↔ ¬ old <+: c :: (text ++ cs) ∧
          ∀ before after, text = before ++ after → after ≠ [] → ¬ old <+: after ++ cs := by
      constructor
      · intro h
        refine ⟨h [] (c :: text) rfl (cons_ne_nil _ _), fun before after heq => ?_⟩
        exact h (c :: before) after (congrArg (c :: ·) heq)
      · rintro ⟨hfirst, hrest⟩ before after heq hafter
        cases before with
        | nil => exact (show c :: text = after from heq) ▸ hfirst
        | cons d before => exact hrest before after (List.cons.inj heq).2 hafter
    rw [hsplit, cons_append, findAll, map_cons, cons_append]
    by_cases hstart : old <+: c :: (text ++ cs)
    · simp [ isPrefixOf_iff_prefix.mpr hstart, hstart]
    · have hfalse : old.isPrefixOf (c :: (text ++ cs)) = false := by
        simpa [← isPrefixOf_iff_prefix] using hstart
      rw [hfalse, if_neg Bool.false_ne_true, List.cons.injEq, ih]
      simp [hstart]

theorem standsOut_cons (p : Piece) :
    StandsOut r done (p :: reading) ↔
      (p.isOpen r done = false → ∀ before after, p.text done = before ++ after → after ≠ [] →
        ¬ r.old <+: after ++ fill done reading) ∧ StandsOut r done reading := by
  constructor
  · intro h
    refine ⟨h [] p reading rfl, fun left q right heq => ?_⟩
    exact h (p :: left) q right (congrArg (p :: ·) heq)
  · rintro ⟨hfirst, hrest⟩ left q right heq
    cases left with
    | nil =>
      obtain ⟨rfl, rfl⟩ := List.cons.inj heq
      exact hfirst
    | cons d left => exact hrest left q right (List.cons.inj heq).2

/-- A replacement finds the open placeholders of the reading and nothing else exactly when they
stand out. -/
theorem findAll_fill_iff (hold : r.old ≠ []) :
    findAll r.old 0 (fill done reading) = reading.flatMap (Piece.seenBy r done) ↔
      StandsOut r done reading := by
  induction reading with
  | nil =>
    refine iff_of_true rfl fun left p right hnil => ?_
    exact absurd hnil.symm (append_ne_nil_of_right_ne_nil _ (cons_ne_nil _ _))
  | cons p reading ih =>
    have hfill : fill done (p :: reading) = p.text done ++ fill done reading := flatMap_cons
    rw [hfill, flatMap_cons, standsOut_cons, ← ih, Piece.seenBy]
    cases hopen : p.isOpen r done with
    | true =>
      rw [Piece.isOpen, Bool.and_eq_true, decide_eq_true_eq, decide_eq_true_eq] at hopen
      obtain ⟨rfl, hnew⟩ := hopen
      rw [Piece.text, if_neg hnew, findAll_self hold, if_pos rfl, singleton_append]
      simp
    | false =>
      rw [if_neg Bool.false_ne_true, findAll_copied_iff]
      simp

/-! ## Values that are put in -/

/-- A spelling that is found nowhere is replaced nowhere. -/
theorem replaceAll_of_absent {text : List Char} (habsent : ¬ r.old <:+: text) :
    replaceAll text r = text := by
  have hcopied := (findAll_copied_iff r.old text [] []).mpr
    ⟨fun before after heq _ hstart => ?_, rfl⟩
  · rw [append_nil, append_nil] at hcopied
    rw [replaceAll, hcopied, flatMap_copied]
  · rw [append_nil] at hstart
    exact habsent (hstart.isInfix.trans ⟨before, [], by rw [append_nil, heq]⟩)

theorem new_infix_replaceAll {text : List Char} (hold : r.old ≠ []) (hin : r.old <:+: text) :
    r.new <:+: replaceAll text r := by
  have hfound : none ∈ findAll r.old 0 text := by
    induction text with
    | nil => exact absurd (infix_nil.mp hin) hold
    | cons c text ih =>
      rw [findAll]
      split
      case isTrue => exact mem_cons_self
      case isFalse hstart =>
        rw [ isPrefixOf_iff_prefix] at hstart
        exact mem_cons_of_mem _ (ih ((infix_cons_iff.mp hin).resolve_left hstart))
  obtain ⟨left, right, hsplit⟩ := append_of_mem hfound
  rw [replaceAll, hsplit, flatMap_append, flatMap_cons]
  exact ⟨_, _, append_assoc _ _ _⟩

/-- The text starts with a dollar sign and ends with a brace, as placeholders do. -/
structure Bracketed (old : List Char) : Prop where
  first : ∃ rest, old = '$' :: rest
  last : ∃ init, old = init ++ ['\x7d']

theorem Bracketed.ne_nil {old : List Char} (hold : Bracketed old) : old ≠ [] := by
  obtain ⟨rest, rfl⟩ := hold.first
  exact cons_ne_nil _ _

section Run

variable {old : List Char} {n : ℕ}

/-- A placeholder that starts ahead of a long run of another letter ends ahead of it. -/
theorem Bracketed.length_le (hold : Bracketed old) (hlong : old.length ≤ n)
    {left right : List Char}
    (hstart : old <+: left ++ (List.replicate n 'x' ++ right)) : old.length ≤ left.length := by
  obtain ⟨init, rfl⟩ := hold.last
  obtain ⟨rest, hrest⟩ := hstart
  rw [length_append, length_singleton] at hlong ⊢
  by_contra hover
  -- the last character of the placeholder would be one of the run
  have hat := congrArg (fun text => text[init.length]?) hrest
  simp only [append_assoc, getElem?_append_right (Nat.le_refl init.length), Nat.sub_self,
    singleton_append, getElem?_cons_zero] at hat
  rw [getElem?_append_right (by omega), getElem?_append_left (by rw [length_replicate]; omega),
    getElem?_replicate, if_pos (by omega)] at hat
  cases hat

theorem Bracketed.findAll_run (hold : Bracketed old) (hlong : old.length ≤ n)
    (left right : List Char) {skip : ℕ} (hskip : skip ≤ left.length) :
    ∃ a b, findAll old skip (left ++ (List.replicate n 'x' ++ right)) =
      a ++ ((List.replicate n 'x').map some ++ b) := by
  induction left generalizing skip with
  | nil =>
    obtain rfl : skip = 0 := Nat.le_zero.mp hskip
    refine ⟨[], findAll old 0 right, (findAll_copied_iff old _ right _).mpr ⟨?_, rfl⟩⟩
    intro before after heq hafter hstart
    obtain ⟨rest, rfl⟩ := hold.first
    obtain ⟨c, after, rfl⟩ := exists_cons_of_ne_nil hafter
    have hx : c = 'x' := eq_of_mem_replicate (heq ▸ mem_append_cons_self)
    rw [cons_append, hx] at hstart
    exact absurd (cons_prefix_cons.mp hstart).1 (by decide)
  | cons c left ih =>
    cases skip with
    | succ skip => exact ih (Nat.le_of_succ_le_succ hskip)
    | zero =>
      rw [cons_append, findAll]
      split
      case isTrue hstart =>
        have hle : old.length ≤ (c :: left).length :=
          hold.length_le hlong ( isPrefixOf_iff_prefix.mp hstart)
        have hskip : old.length - 1 ≤ left.length := by
          rw [length_cons] at hle
          omega
        obtain ⟨a, b, hfound⟩ := ih hskip
        exact ⟨none :: a, b, by rw [hfound, cons_append]⟩
      case isFalse =>
        obtain ⟨a, b, hfound⟩ := ih (Nat.zero_le _)
        exact ⟨some c :: a, b, by rw [hfound, cons_append]⟩

/-- A run of letters that is longer than the placeholder is left in one piece. -/
theorem run_infix_replaceAll {text : List Char} (hold : Bracketed r.old) (hlong : r.old.length ≤ n)
    (hrun : List.replicate n 'x' <:+: text) : List.replicate n 'x' <:+: replaceAll text r := by
  obtain ⟨left, right, rfl⟩ := hrun
  obtain ⟨a, b, hfound⟩ := hold.findAll_run hlong left right (Nat.zero_le _)
  rw [append_assoc, replaceAll, hfound, flatMap_append, flatMap_append, flatMap_copied]
  exact ⟨_, _, append_assoc _ _ _⟩

variable {rs : List Replacement} {text : List Char}

theorem foldl_replaceAll_of_absent (habsent : ∀ r ∈ rs, ¬ r.old <:+: text) :
    rs.foldl replaceAll text = text := by
  induction rs with
  | nil => rfl
  | cons r rs ih =>
    rw [forall_mem_cons] at habsent
    rw [foldl_cons, replaceAll_of_absent habsent.1, ih habsent.2]

variable (hrs : ∀ r ∈ rs, Bracketed r.old ∧ r.old.length ≤ n)

include hrs

theorem run_infix_foldl (hrun : List.replicate n 'x' <:+: text) :
    List.replicate n 'x' <:+: rs.foldl replaceAll text := by
  induction rs generalizing text with
  | nil => exact hrun
  | cons r rs ih =>
    rw [forall_mem_cons] at hrs
    exact ih hrs.2 (run_infix_replaceAll hrs.1.1 hrs.1.2 hrun)

/-- A long value that is put in for the first placeholder that is found is there in the end. -/
theorem run_infix_foldl_of_found (hnew : ∀ r ∈ rs, List.replicate n 'x' <:+: r.new)
    (hfound : ∃ r ∈ rs, r.old <:+: text) :
    List.replicate n 'x' <:+: rs.foldl replaceAll text := by
  induction rs with
  | nil =>
    obtain ⟨r, hr, -⟩ := hfound
    cases hr
  | cons r rs ih =>
    rw [forall_mem_cons] at hrs hnew
    rw [foldl_cons]
    by_cases hfirst : r.old <:+: text
    · exact run_infix_foldl hrs.2 (hnew.1.trans (new_infix_replaceAll hrs.1.1.ne_nil hfirst))
    · rw [replaceAll_of_absent hfirst]
      obtain ⟨r', hr', hfound⟩ := hfound
      refine ih hrs.2 hnew.2 ⟨r', (mem_cons.mp hr').resolve_left ?_, hfound⟩
      rintro rfl
      exact hfirst hfound

end Run

theorem bracketed_spelling {name old : List Char} (hold : old ∈ spellings name) :
    Bracketed old := by
  rcases mem_pair.mp hold with rfl | rfl
  · exact ⟨⟨_, rfl⟩, ⟨"$\x7b\x7b inputs.".toList ++ name ++ " \x7d".toList, by simp⟩⟩
  · exact ⟨⟨_, rfl⟩, ⟨"$\x7b\x7binputs.".toList ++ name ++ "\x7d".toList, by simp⟩⟩

theorem exists_spelling (hr : r ∈ replacements order) :
    ∃ i ∈ order, ∃ old ∈ spellings i.name, r = ⟨old, i.value⟩ := by
  obtain ⟨i, hi, hr⟩ := mem_flatMap.mp hr
  obtain ⟨old, hold, rfl⟩ := mem_map.mp hr
  exact ⟨i, hi, old, hold, rfl⟩

theorem bracketed_old (hr : r ∈ replacements order) : Bracketed r.old := by
  obtain ⟨i, -, old, hold, rfl⟩ := exists_spelling hr
  exact bracketed_spelling hold

/-! ## The loop -/

theorem replaceAll_fill
    (hfound : findAll r.old 0 (fill done reading) = reading.flatMap (Piece.seenBy r done)) :
    replaceAll (fill done reading) r = fill (done ++ [r]) reading := by
  rw [replaceAll, hfound, flatMap_assoc, fill]
  congr 1
  funext p
  rw [Piece.seenBy]
  split
  · rename_i hopen
    rw [Piece.isOpen, Bool.and_eq_true, decide_eq_true_eq] at hopen
    simp [hopen.1, Piece.text]
  · rename_i hopen
    rw [flatMap_copied]
    cases p with
    | char => rfl
    | hole r' =>
      have hr : r' = r → r' ∈ done := by
        rintro rfl
        simpa [Piece.isOpen] using hopen
      by_cases hmem : r' ∈ done
      · simp [Piece.text, hmem]
      · simp [Piece.text, hmem, mt hr hmem]

/-- The loop leaves what is read as text, as long as each replacement finds its placeholders
in it. -/
theorem foldl_replaceAll (hread : fill [] reading = template)
    (hfound : ∀ done r rest, replacements order = done ++ r :: rest →
      done.foldl replaceAll template = fill done reading →
        findAll r.old 0 (fill done reading) = reading.flatMap (Piece.seenBy r done))
    (hdone : replacements order = done ++ rest) :
    done.foldl replaceAll template = fill done reading := by
  induction done using List.reverseRecOn generalizing rest with
  | nil => exact hread.symm
  | append_singleton done r ih =>
    rw [append_assoc] at hdone
    have hdone' := ih hdone
    rw [foldl_append, hdone', foldl_cons, foldl_nil]
    exact replaceAll_fill (hfound done r rest hdone hdone')

/-- The texts of the loop are partly filled templates on either side. -/
theorem finds_iff_standsOut (hread : fill [] reading = template) :
    (∀ done r rest, replacements order = done ++ r :: rest →
      findAll r.old 0 (done.foldl replaceAll template) = reading.flatMap (Piece.seenBy r done)) ↔
    ∀ done r rest, replacements order = done ++ r :: rest → StandsOut r done reading := by
  have hold : ∀ {done r rest}, replacements order = done ++ r :: rest → r.old ≠ [] := by
    intro done r rest hdone
    exact (bracketed_old (hdone ▸ mem_append_cons_self)).ne_nil
  constructor
  · intro hfinds done r rest hdone
    have htext := foldl_replaceAll hread (fun done r rest h htext =>
      htext ▸ hfinds done r rest h) hdone
    exact (findAll_fill_iff (hold hdone)).mp (htext ▸ hfinds done r rest hdone)
  · intro hstands done r rest hdone
    have htext := foldl_replaceAll hread (fun done r rest h _ =>
      (findAll_fill_iff (hold h)).mpr (hstands done r rest h)) hdone
    rw [htext]
    exact (findAll_fill_iff (hold hdone)).mpr (hstands done r rest hdone)

theorem fill_congr (hsame : ∀ r, r ∈ done ↔ r ∈ done') :
    fill done reading = fill done' reading := by
  rw [fill, fill]
  congr 1
  funext p
  cases p with
  | char => rfl
  | hole => simp [Piece.text, hsame]

theorem Simultaneous.order_independent (hsim : Simultaneous inputs template)
    (horder : order.Perm inputs) :
    renderInputString template order = renderInputString template inputs := by
  obtain ⟨reading, hread, hfinds⟩ := hsim
  have hfill : ∀ order, order.Perm inputs →
      renderInputString template order = fill (replacements order) reading :=
    fun order hperm => foldl_replaceAll hread (fun done r rest h htext =>
      htext ▸ hfinds order hperm done r rest h) (append_nil _).symm
  rw [hfill order horder, hfill inputs (.refl _)]
  exact fill_congr fun r => (horder.flatMap_right _).mem_iff

/-- The substitution is simultaneous exactly if no value spells a placeholder, alone or with the
text around it, and then the order of the inputs does not matter. -/
theorem simultaneous_iff_separate (inputs : List Input) (template : List Char) :
    (Simultaneous inputs template ↔ Separate inputs template) ∧
      (Simultaneous inputs template → ∀ order, order.Perm inputs →
        renderInputString template order = renderInputString template inputs) := by
  refine ⟨exists_congr fun reading => and_congr_right fun hread => ?_, ?_⟩
  · exact forall₂_congr fun order _ => finds_iff_standsOut hread
  intro hsim order horder
  exact hsim.order_independent horder

/-- A note that quotes a placeholder. -/
def quoting : List Input :=
  [⟨"note".toList, "use $\x7b\x7b inputs.repo \x7d\x7d".toList⟩, ⟨"repo".toList, "apiary".toList⟩]

theorem quoted_placeholder_expanded : let template := "Note: $\x7b\x7b inputs.note \x7d\x7d".toList
    renderInputString template quoting = "Note: use apiary".toList ∧
      renderInputString template quoting.reverse =
        "Note: use $\x7b\x7b inputs.repo \x7d\x7d".toList ∧
      ¬ Simultaneous quoting template := by
  refine ⟨by decide +kernel, by decide +kernel, ?_⟩
  intro hsim
  have hsame := hsim.order_independent (reverse_perm quoting)
  exact absurd hsame (by decide +kernel)

end Apiary.Workflow.Inputs
