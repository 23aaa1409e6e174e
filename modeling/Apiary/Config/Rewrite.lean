import Apiary.Expr.Lexer

/-!
# Rewriting step references

`rewriteStepRefs` turns the authored shorthand `<step>.<field>` into
`memory.<field>`.  It finds the shorthand with a character scan of its own, which
knows words and dots but neither the quotes nor the accessors of the expression
language.

The loop is compared with the runtime's lexer through a reading of it that goes
character by character: `Mode` is what the scan knows between two characters.
-/

namespace Apiary.Config

open Apiary.Expr List Option

variable {rest word cs text : List Char} {mode : Mode} {pos : ℕ} {site : ℕ × List Char} {c : Char}

def isIdentRune (c : Char) : Bool :=
  c = '_' || ('a' ≤ c && c ≤ 'z') || ('A' ≤ c && c ≤ 'Z') || ('0' ≤ c && c ≤ '9') || c = '-'

variable (isStep : String → Bool)

/-- The scan: the rewritten text, and the fields it found with the steps they
belong to.  Every turn consumes a character, so `fuel` bounds the turns by the
length of the text. -/
def rewriteFrom : ℕ → List Char → List Char × List (String × String)
  | 0, _ => ([], [])
  | _ + 1, [] => ([], [])
  | fuel + 1, c :: cs =>
    if isIdentRune c then
      let word1 := c :: cs.takeWhile isIdentRune
      let rest := cs.dropWhile isIdentRune
      let word2 := rest.tail.takeWhile isIdentRune
      if rest.head? = some '.' && word2 ≠ [] && isStep (String.ofList word1) then
        let more := rewriteFrom fuel (rest.tail.dropWhile isIdentRune)
        ("memory.".toList ++ word2 ++ more.1, (String.ofList word1, String.ofList word2) :: more.2)
      else
        let more := rewriteFrom fuel rest
        (word1 ++ more.1, more.2)
    else
      let more := rewriteFrom fuel cs
      (c :: more.1, more.2)

def rewriteStepRefs (src : String) : String :=
  String.ofList (rewriteFrom isStep src.toList.length src.toList).1

/-- The step outputs a rewritten expression reads. -/
def stepRefs (src : String) : List (String × String) :=
  (rewriteFrom isStep src.toList.length src.toList).2

/-! ## The scan, character by character -/

/-- Between two characters the scan is at a place where a reference may start, in a
word it copies, or in the first word of a reference, which it copies or drops. -/
inductive Mode where
  | free
  | inside
  | fired (copies : Bool)
  deriving DecidableEq

/-- The first word of the reference that the text starts with. -/
def reference (cs : List Char) : Option (List Char) :=
  if (cs.dropWhile isIdentRune).head? = some '.' &&
      (cs.dropWhile isIdentRune).tail.takeWhile isIdentRune ≠ [] &&
      isStep (String.ofList (cs.takeWhile isIdentRune)) then some (cs.takeWhile isIdentRune)
  else none

def memoryWord : List Char := "memory".toList

/-- The word that is replaced here.  A step called `memory` is replaced by itself. -/
def replaced : Mode → List Char → Option (List Char)
  | .free, cs =>
    if cs.head?.any isIdentRune then (reference isStep cs).filter (· ≠ memoryWord) else none
  | _, _ => none

def nextMode (mode : Mode) (c : Char) (cs : List Char) : Mode :=
  match mode with
  | .free =>
    if isIdentRune c then
      match reference isStep (c :: cs) with
      | none => .inside
      | some word => .fired (word = memoryWord)
    else .free
  | .inside => if isIdentRune c then .inside else .free
  | .fired copies => if isIdentRune c then .fired copies else .inside

def emitted (mode : Mode) (c : Char) (cs : List Char) : List Char :=
  match replaced isStep mode (c :: cs) with
  | some _ => memoryWord
  | none => if mode = .fired false && isIdentRune c then [] else [c]

def rewriteFromMode : Mode → List Char → List Char
  | _, [] => []
  | mode, c :: cs => emitted isStep mode c cs ++ rewriteFromMode (nextMode isStep mode c cs) cs

/-- The replaced words, with their places. -/
def sitesFrom : Mode → ℕ → List Char → List (ℕ × List Char)
  | _, _, [] => []
  | mode, pos, c :: cs =>
    (replaced isStep mode (c :: cs)).toList.map (fun word => (pos, word)) ++
      sitesFrom (nextMode isStep mode c cs) (pos + 1) cs

section Characters

variable {isStep}

theorem rewriteFromMode_cons (mode : Mode) (c : Char) (cs : List Char) :
    rewriteFromMode isStep mode (c :: cs) =
      emitted isStep mode c cs ++ rewriteFromMode isStep (nextMode isStep mode c cs) cs := rfl

theorem rewriteFromMode_inside (word rest : List Char) (hword : ∀ c ∈ word, isIdentRune c = true) :
    rewriteFromMode isStep .inside (word ++ rest) =
      word ++ rewriteFromMode isStep .inside rest := by
  induction word with
  | nil => rfl
  | cons c word ih =>
    have hc : isIdentRune c = true := hword c mem_cons_self
    rw [cons_append, rewriteFromMode_cons]
    simp only [emitted, replaced, nextMode, hc, reduceCtorEq, decide_false, Bool.false_and,
      Bool.false_eq_true, if_false, if_true]
    rw [ih fun d hd => hword d (mem_cons_of_mem _ hd)]
    rfl

theorem rewriteFromMode_fired (copies : Bool) (word rest : List Char)
    (hword : ∀ c ∈ word, isIdentRune c = true) :
    rewriteFromMode isStep (.fired copies) (word ++ rest) =
      (if copies then word else []) ++ rewriteFromMode isStep (.fired copies) rest := by
  induction word with
  | nil => cases copies <;> rfl
  | cons c word ih =>
    have hc : isIdentRune c = true := hword c mem_cons_self
    rw [cons_append, rewriteFromMode_cons]
    simp only [emitted, replaced, nextMode, hc, if_true]
    rw [ih fun d hd => hword d (mem_cons_of_mem _ hd)]
    cases copies <;> simp

/-- Where no word goes on, it does not matter whether one has just ended. -/
theorem rewriteFromMode_free_of_stop (hstop : ∀ c ∈ rest.head?, isIdentRune c = false) :
    rewriteFromMode isStep .inside rest = rewriteFromMode isStep .free rest := by
  cases rest with
  | nil => rfl
  | cons c =>
    have hc : isIdentRune c = false := hstop c rfl
    simp [rewriteFromMode_cons, emitted, replaced, nextMode, hc]

theorem reference_eq (hruns : Runs isIdentRune (word ++ rest) word rest) :
    reference isStep (word ++ rest) =
      if rest.head? = some '.' && rest.tail.takeWhile isIdentRune ≠ [] &&
          isStep (String.ofList word) then some word
      else none := by
  rw [reference, hruns.takeWhile_eq.1, hruns.takeWhile_eq.2]

theorem rewriteFromMode_reference {field : List Char} (hne : word ≠ [])
    (hword : ∀ c ∈ word, isIdentRune c = true) (hstep : isStep (String.ofList word) = true)
    (hfield : field ≠ []) (hruns : Runs isIdentRune (field ++ rest) field rest) :
    rewriteFromMode isStep .free (word ++ '.' :: (field ++ rest)) =
      memoryWord ++ '.' :: (field ++ rewriteFromMode isStep .free rest) := by
  have hcut : Runs isIdentRune (word ++ '.' :: (field ++ rest)) word ('.' :: (field ++ rest)) :=
    ⟨rfl, hword, fun d hd => by rw [← some.inj hd]; decide⟩
  have hreference : reference isStep (word ++ '.' :: (field ++ rest)) = some word := by
    rw [reference_eq hcut, tail_cons, hruns.takeWhile_eq.1]
    simp [hfield, hstep]
  cases word with
  | nil => exact absurd rfl hne
  | cons c word =>
    have hc : isIdentRune c = true := hword c mem_cons_self
    have hdot : isIdentRune '.' = false := by decide
    have hafter : ∀ copies, rewriteFromMode isStep (.fired copies) ('.' :: (field ++ rest)) =
        '.' :: (field ++ rewriteFromMode isStep .free rest) := by
      intro copies
      rw [rewriteFromMode_cons]
      simp only [emitted, replaced, nextMode, hdot, Bool.and_false, Bool.false_eq_true, if_false]
      rw [rewriteFromMode_inside field rest hruns.inside, rewriteFromMode_free_of_stop hruns.stops]
      rfl
    rw [cons_append] at hreference ⊢
    rw [rewriteFromMode_cons]
    simp only [emitted, replaced, nextMode, head?_cons, any_some, hc, hreference, if_true]
    rw [rewriteFromMode_fired _ word _ fun d hd => hword d (mem_cons_of_mem _ hd), hafter]
    by_cases hmemory : c :: word = memoryWord
    · simp [Option.filter, ← hmemory]
    · simp [Option.filter, hmemory]

theorem rewriteFromMode_word (hne : word ≠ []) (hruns : Runs isIdentRune (word ++ rest) word rest)
    (hnone : reference isStep (word ++ rest) = none) :
    rewriteFromMode isStep .free (word ++ rest) = word ++ rewriteFromMode isStep .free rest := by
  cases word with
  | nil => exact absurd rfl hne
  | cons c word =>
    have hc : isIdentRune c = true := hruns.inside c mem_cons_self
    rw [cons_append] at hnone ⊢
    rw [rewriteFromMode_cons]
    simp only [emitted, replaced, nextMode, head?_cons, any_some, hc, hnone, if_true,
      filter_none, reduceCtorEq, decide_false, Bool.false_and, Bool.false_eq_true, if_false]
    rw [rewriteFromMode_inside word rest fun d hd => hruns.inside d (mem_cons_of_mem _ hd),
      rewriteFromMode_free_of_stop hruns.stops]
    rfl

/-- The loop and the reading of it by characters are the same function. -/
theorem rewriteFrom_eq {fuel : ℕ} (hfuel : cs.length ≤ fuel) :
    (rewriteFrom isStep fuel cs).1 = rewriteFromMode isStep .free cs := by
  induction fuel generalizing cs with
  | zero =>
    obtain rfl := length_eq_zero_iff.mp (Nat.le_zero.mp hfuel)
    rfl
  | succ fuel ih =>
    cases cs with
    | nil => rfl
    | cons c cs =>
      rw [length_cons, Nat.add_le_add_iff_right] at hfuel
      rw [rewriteFrom]
      by_cases hc : isIdentRune c = true
      · have hword : ∀ d ∈ c :: cs.takeWhile isIdentRune, isIdentRune d = true := by
          intro d hd
          rcases mem_cons.mp hd with rfl | hd
          · exact hc
          · exact (runs_takeWhile isIdentRune cs).inside d hd
        have htext : c :: cs = (c :: cs.takeWhile isIdentRune) ++ cs.dropWhile isIdentRune := by
          rw [cons_append, ← (runs_takeWhile isIdentRune cs).text]
        have hcut : Runs isIdentRune
            ((c :: cs.takeWhile isIdentRune) ++ cs.dropWhile isIdentRune)
            (c :: cs.takeWhile isIdentRune) (cs.dropWhile isIdentRune) :=
          ⟨rfl, hword, (runs_takeWhile isIdentRune cs).stops⟩
        have hshort : (cs.dropWhile isIdentRune).length ≤ cs.length :=
          (dropWhile_suffix isIdentRune).length_le
        rw [if_pos hc]
        dsimp only
        split_ifs with hfires
        · simp only [Bool.and_eq_true, decide_eq_true_eq] at hfires
          obtain ⟨⟨hdot, hfield⟩, hstep⟩ := hfires
          obtain ⟨after, hafter⟩ := head?_eq_some_iff.mp hdot
          rw [hafter, tail_cons] at hfield ⊢
          have hruns := runs_takeWhile isIdentRune after
          have hlength : (after.dropWhile isIdentRune).length ≤ fuel := by
            have := (dropWhile_suffix (l := after) isIdentRune).length_le
            rw [hafter, length_cons] at hshort
            omega
          calc "memory.".toList ++ after.takeWhile isIdentRune ++
                (rewriteFrom isStep fuel (after.dropWhile isIdentRune)).1
              = memoryWord ++ '.' :: (after.takeWhile isIdentRune ++
                  rewriteFromMode isStep .free (after.dropWhile isIdentRune)) := by
                rw [ih hlength]
                simp [memoryWord]
            _ = rewriteFromMode isStep .free ((c :: cs.takeWhile isIdentRune) ++
                  '.' :: (after.takeWhile isIdentRune ++ after.dropWhile isIdentRune)) :=
                (rewriteFromMode_reference (cons_ne_nil _ _) hword hstep hfield
                  ⟨rfl, hruns.inside, hruns.stops⟩).symm
            _ = rewriteFromMode isStep .free (c :: cs) := by rw [htext, hafter, ← hruns.text]
        · calc (c :: cs.takeWhile isIdentRune) ++
                (rewriteFrom isStep fuel (cs.dropWhile isIdentRune)).1
              = (c :: cs.takeWhile isIdentRune) ++
                  rewriteFromMode isStep .free (cs.dropWhile isIdentRune) := by
                rw [ih (hshort.trans hfuel)]
            _ = rewriteFromMode isStep .free
                  ((c :: cs.takeWhile isIdentRune) ++ cs.dropWhile isIdentRune) :=
                (rewriteFromMode_word (cons_ne_nil _ _) hcut
                  ((reference_eq hcut).trans (if_neg hfires))).symm
            _ = rewriteFromMode isStep .free (c :: cs) := by rw [← htext]
      · rw [if_neg hc]
        dsimp only
        rw [ih hfuel, rewriteFromMode_cons]
        simp [emitted, replaced, nextMode, hc]

end Characters

/-! ## Stretches of the scan -/

section Stretches

variable {isStep : String → Bool}

/-- The mode of the scan after a stretch, given what follows it. -/
def modeAfter (isStep : String → Bool) : Mode → List Char → List Char → Mode
  | mode, [], _ => mode
  | mode, c :: cs, rest => modeAfter isStep (nextMode isStep mode c (cs ++ rest)) cs rest

def sitesIn (isStep : String → Bool) : Mode → ℕ → List Char → List Char → List (ℕ × List Char)
  | _, _, [], _ => []
  | mode, pos, c :: cs, rest =>
    (replaced isStep mode (c :: (cs ++ rest))).toList.map (fun word => (pos, word)) ++
      sitesIn isStep (nextMode isStep mode c (cs ++ rest)) (pos + 1) cs rest

theorem sitesFrom_append (mode : Mode) (pos : ℕ) (text rest : List Char) :
    sitesFrom isStep mode pos (text ++ rest) = sitesIn isStep mode pos text rest ++
        sitesFrom isStep (modeAfter isStep mode text rest) (pos + text.length) rest := by
  induction text generalizing mode pos with
  | nil => rfl
  | cons c text ih =>
    rw [cons_append, sitesFrom, ih, sitesIn, modeAfter, append_assoc, length_cons]
    congr 3
    omega

theorem le_of_mem_sitesFrom (hsite : site ∈ sitesFrom isStep mode pos cs) : pos ≤ site.1 := by
  induction cs generalizing mode pos with
  | nil => exact absurd hsite not_mem_nil
  | cons c cs ih =>
    rcases mem_append.mp hsite with hhere | hlater
    · obtain ⟨word, -, rfl⟩ := List.mem_map.mp hhere
      exact le_rfl
    · exact (Nat.le_succ pos).trans (ih hlater)

theorem lt_of_mem_sitesIn (hsite : site ∈ sitesIn isStep mode pos text rest) :
    pos ≤ site.1 ∧ site.1 < pos + text.length := by
  induction text generalizing mode pos with
  | nil => exact absurd hsite not_mem_nil
  | cons c text ih =>
    rw [length_cons]
    rcases mem_append.mp hsite with hhere | hlater
    · obtain ⟨word, -, rfl⟩ := List.mem_map.mp hhere
      dsimp only
      omega
    · have := ih hlater
      omega

/-- Only a place that replaces a word makes the scan drop characters. -/
theorem nextMode_ne_dropping (hnone : replaced isStep mode (c :: cs) = none)
    (hkept : mode = .fired false → isIdentRune c = false) :
    nextMode isStep mode c cs ≠ .fired false := by
  cases mode with
  | free =>
    rw [nextMode]
    split_ifs with hc
    · rw [replaced, head?_cons, any_some, if_pos hc] at hnone
      split
      · decide
      · rename_i hword
        rw [hword] at hnone
        simpa [Option.filter] using hnone
    · decide
  | inside =>
    rw [nextMode]
    split <;> decide
  | fired copies =>
    rw [nextMode]
    cases copies with
    | true => split <;> decide
    | false => rw [if_neg (by simp [hkept rfl])]; decide

theorem emitted_of_none (hnone : replaced isStep mode (c :: cs) = none)
    (hkept : mode = .fired false → isIdentRune c = false) : emitted isStep mode c cs = [c] := by
  rw [emitted, hnone]
  refine if_neg ?_
  rw [Bool.and_eq_true, decide_eq_true_eq]
  rintro ⟨hmode, hc⟩
  exact absurd hc (by simp [hkept hmode])

theorem rewriteFromMode_copies (hnone : sitesIn isStep mode pos text rest = [])
    (hkept : mode = .fired false → ∀ c ∈ text.head?, isIdentRune c = false) (htext : text ≠ []) :
    rewriteFromMode isStep mode (text ++ rest) =
        text ++ rewriteFromMode isStep (modeAfter isStep mode text rest) rest ∧
      modeAfter isStep mode text rest ≠ .fired false := by
  induction text generalizing mode pos with
  | nil => exact absurd rfl htext
  | cons c text ih =>
    rw [sitesIn, append_eq_nil_iff, map_eq_nil_iff, toList_eq_nil_iff] at hnone
    have hkept' : mode = .fired false → isIdentRune c = false := fun h => hkept h c rfl
    have hnext := nextMode_ne_dropping hnone.1 hkept'
    rw [cons_append, rewriteFromMode_cons, emitted_of_none hnone.1 hkept', modeAfter]
    cases text with
    | nil => exact ⟨rfl, hnext⟩
    | cons =>
      obtain ⟨heq, hmode⟩ := ih hnone.2 (fun h => absurd h hnext) (cons_ne_nil _ _)
      exact ⟨congrArg (c :: ·) heq, hmode⟩

theorem nextMode_of_replaced (hreplaced : replaced isStep mode (c :: cs) = some word) :
    nextMode isStep mode c cs = .fired false := by
  cases mode with
  | free =>
    rw [replaced, head?_cons, any_some] at hreplaced
    obtain ⟨hc, hreplaced⟩ := ite_none_right_eq_some.mp hreplaced
    obtain ⟨hword, hne⟩ := filter_eq_some_iff.mp hreplaced
    simp only [nextMode, hc, hword, if_true]
    simpa using hne
  | inside | fired => cases hreplaced

theorem sitesFrom_fired (copies : Bool) (pos : ℕ) (word rest : List Char)
    (hword : ∀ c ∈ word, isIdentRune c = true) :
    sitesFrom isStep (.fired copies) pos (word ++ rest) =
      sitesFrom isStep (.fired copies) (pos + word.length) rest := by
  induction word generalizing pos with
  | nil => rfl
  | cons c word ih =>
    have hc : isIdentRune c = true := hword c mem_cons_self
    have hnext : nextMode isStep (.fired copies) c (word ++ rest) = .fired copies := if_pos hc
    rw [cons_append, sitesFrom, hnext, ih _ fun d hd => hword d (mem_cons_of_mem _ hd),
      length_cons, Nat.add_right_comm, Nat.add_assoc]
    rfl

theorem first_site (hkept : mode = .fired false → ∀ c ∈ text.head?, isIdentRune c = false) :
    sitesIn isStep mode pos text rest = [] ∨ ∃ before c after word, text = before ++ c :: after ∧
        replaced isStep (modeAfter isStep mode before (c :: after ++ rest)) (c :: after ++ rest) =
          some word ∧
        rewriteFromMode isStep mode (text ++ rest) =
          before ++ memoryWord ++ rewriteFromMode isStep (.fired false) (after ++ rest) := by
  induction text generalizing mode pos with
  | nil => exact .inl rfl
  | cons c text ih =>
    have hkept' : mode = .fired false → isIdentRune c = false := fun h => hkept h c rfl
    cases hreplaced : replaced isStep mode (c :: (text ++ rest)) with
    | some word =>
      refine .inr ⟨[], c, text, word, rfl, hreplaced, ?_⟩
      rw [cons_append, rewriteFromMode_cons, nextMode_of_replaced hreplaced, emitted, hreplaced]
      rfl
    | none =>
      have hnext := nextMode_ne_dropping hreplaced hkept'
      have hlater := @ih (nextMode isStep mode c (text ++ rest)) (pos + 1)
        fun h => absurd h hnext
      rcases hlater with hnone | ⟨before, d, after, word, rfl, hword, heq⟩
      · left
        rw [sitesIn, hreplaced, hnone]
        rfl
      · right
        refine ⟨c :: before, d, after, word, rfl, ?_, ?_⟩
        · rw [modeAfter]
          simpa using hword
        · rw [cons_append, rewriteFromMode_cons, emitted_of_none hreplaced hkept', heq]
          rfl

theorem nextMode_ne_free (hc : isIdentRune c = true) (cs : List Char) :
    nextMode isStep mode c cs ≠ .free := by
  cases mode with
  | free =>
    rw [nextMode, if_pos hc]
    split <;> simp
  | inside | fired => simp [nextMode, hc]

theorem modeAfter_ne_free (rest : List Char) (htext : text ≠ [])
    (hword : ∀ c ∈ text, isIdentRune c = true) : modeAfter isStep mode text rest ≠ .free := by
  induction text generalizing mode with
  | nil => exact absurd rfl htext
  | cons c text ih =>
    rw [modeAfter]
    cases text with
    | nil => exact nextMode_ne_free (hword c mem_cons_self) _
    | cons => exact ih (cons_ne_nil _ _) fun e he => hword e (mem_cons_of_mem _ he)

theorem replaced_eq_some (hreplaced : replaced isStep mode cs = some word) :
    mode = .free ∧ word = cs.takeWhile isIdentRune ∧ word ≠ [] ∧ word ≠ memoryWord ∧
      ∃ after, cs = word ++ '.' :: after := by
  cases mode with
  | inside | fired => cases hreplaced
  | free =>
    obtain ⟨hhead, hreplaced⟩ := ite_none_right_eq_some.mp hreplaced
    obtain ⟨hreference, hne⟩ := filter_eq_some_iff.mp hreplaced
    obtain ⟨hfires, hreference⟩ := ite_none_right_eq_some.mp hreference
    rw [some.injEq] at hreference
    simp only [Bool.and_eq_true, decide_eq_true_eq] at hfires
    obtain ⟨after, hafter⟩ := head?_eq_some_iff.mp hfires.1.1
    refine ⟨rfl, hreference.symm, ?_, by simpa using hne, after, ?_⟩
    · cases cs with
      | nil => cases hhead
      | cons =>
        rw [← hreference, takeWhile_cons_of_pos (by simpa using hhead)]
        exact cons_ne_nil _ _
    · rw [← hreference, ← hafter, takeWhile_append_dropWhile]

/-- The scan starts what follows a copied stretch as it stands, or with `memory`. -/
theorem head?_rewriteFromMode (hmode : mode ≠ .fired false) (cs : List Char) :
    (rewriteFromMode isStep mode cs).head? = cs.head? ∨
      mode = .free ∧ (rewriteFromMode isStep mode cs).head? = some 'm' := by
  cases cs with
  | nil => exact .inl rfl
  | cons c cs =>
    rw [rewriteFromMode_cons]
    cases hreplaced : replaced isStep mode (c :: cs) with
    | none =>
      left
      rw [emitted_of_none hreplaced fun h => absurd h hmode]
      rfl
    | some =>
      right
      rw [emitted, hreplaced]
      exact ⟨(replaced_eq_some hreplaced).1, rfl⟩

end Stretches

end Apiary.Config
