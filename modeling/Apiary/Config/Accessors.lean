import Apiary.Config.Rewrite
import Apiary.Expr.Eval
import Apiary.Workflow.Gates

/-!
# Step references as the runtime reads them

The rewrite is meant for the outputs of steps: an accessor that starts with the id
of a step.  `accessorHeads` finds those in the stretches the runtime's lexer cuts
an expression into, and `Replaces` says that nothing else was changed.
-/

namespace Apiary.Config

open Apiary.Expr List

variable {site : ℕ × List Char} {word after after' rest tail rest' : List Char} {c : Char}
  {segments' : List Segment} {segment : Segment}

/-- The roots the runtime resolves. -/
def accessorRoots : List String := ["cell", "memory", "event", "steps"]

/-- Whether the last token before the next stretch is a dot. -/
def afterDot (previous : Bool) (segment : Segment) : Bool :=
  match segment.token with
  | none => previous
  | some token => token = .dot

/-- What follows the first word of an accessor. -/
def opensField (segments : List Segment) : Bool :=
  match tokensOf segments with
  | .dot :: .ident _ :: _ => true
  | _ => false

/-- The stretch is the first word of an accessor to an output of a step. -/
def isHead (isStep : String → Bool) (previous : Bool) (segment : Segment)
    (segments : List Segment) : Bool :=
  match segment.token with
  | some (.ident name) =>
    !previous && name ∉ accessorRoots && isStep name && opensField segments
  | _ => false

def accessorHeads (isStep : String → Bool) : ℕ → Bool → List Segment → List (ℕ × List Char)
  | _, _, [] => []
  | pos, previous, segment :: segments =>
    (if isHead isStep previous segment segments then [(pos, segment.text)] else []) ++
      accessorHeads isStep (pos + segment.text.length) (afterDot previous segment) segments

def memorySegment : Segment := ⟨memoryWord, some (.ident "memory")⟩

/-- The stretches after a change that reads `memory` for the first word of some
accessors to outputs of steps. -/
inductive Replaces (isStep : String → Bool) : Bool → List Segment → List Segment → Prop where
  | nil (previous : Bool) : Replaces isStep previous [] []
  | keep {previous : Bool} {segment : Segment} {segments segments' : List Segment}
      (hrest : Replaces isStep (afterDot previous segment) segments segments') :
      Replaces isStep previous (segment :: segments) (segment :: segments')
  | head {previous : Bool} {segment : Segment} {segments segments' : List Segment}
      (hhead : isHead isStep previous segment segments = true)
      (hrest : Replaces isStep false segments segments') :
      Replaces isStep previous (segment :: segments) (memorySegment :: segments')

/-- The rewrite changes accessors to step outputs only, as the lexer cuts the
expression.  An expression that the lexer refuses has none. -/
def ChangesOnlyStepOutputs (isStep : String → Bool) (src : String) : Prop :=
  match segments src with
  | .ok found => ∃ segments', Replaces isStep false found segments' ∧
      segments (rewriteStepRefs isStep src) = .ok segments'
  | .error _ => rewriteStepRefs isStep src = src

/-- The words the rewrite replaces are all first words of such accessors. -/
def replacesHeads (isStep : String → Bool) (src : String) : Bool :=
  match segments src with
  | .ok found => (sitesFrom isStep .free 0 src.toList).all fun site =>
    site ∈ accessorHeads isStep 0 false found
  | .error _ => sitesFrom isStep .free 0 src.toList = []

/-- Every accessor of the expression starts with one of the roots. -/
def documented (src : String) : Bool :=
  match segments src with
  | .ok found => accessorHeads (fun _ => true) 0 false found = []
  | .error _ => false

/-! ## Stretches of the lexer -/

section Segments

variable {isStep : String → Bool} {c : Char} {cs rest : List Char} {segment : Segment}

theorem isIdentRune_of_isIdentChar (hc : isIdentChar c = true) : isIdentRune c = true := by
  simp only [isIdentChar, isIdentStart, isDigit, isIdentRune, Bool.or_eq_true] at hc ⊢
  tauto

theorem isIdentRune_of_isBlank (hc : isBlank c = true) : isIdentRune c = false := by
  simp only [isBlank, Bool.or_eq_true, decide_eq_true_eq] at hc
  rcases hc with ((rfl | rfl) | rfl) | rfl <;> decide

theorem scan_ident_chars (hscan : scan c cs = .ok (segment, rest)) {name : String}
    (htoken : segment.token = some (.ident name)) :
    ∀ d ∈ segment.text, isIdentChar d = true := by
  obtain ⟨tail, htext, -, hstart, hruns⟩ := scan_ident hscan htoken
  rw [htext]
  intro d hd
  rcases mem_cons.mp hd with rfl | hd
  · rw [isIdentChar, hstart, Bool.true_or]
  · exact hruns.inside d hd

/-- The spelling of a name is a word of the scan. -/
theorem scan_ident_word (hscan : scan c cs = .ok (segment, rest)) {name : String}
    (htoken : segment.token = some (.ident name)) :
    ∀ d ∈ segment.text, isIdentRune d = true :=
  fun d hd => isIdentRune_of_isIdentChar (scan_ident_chars hscan htoken d hd)

theorem le_of_mem_accessorHeads {pos : ℕ} {previous : Bool} {segments : List Segment}
    (hsite : site ∈ accessorHeads isStep pos previous segments) : pos ≤ site.1 := by
  induction segments generalizing pos previous with
  | nil => exact absurd hsite not_mem_nil
  | cons segment segments ih =>
    rcases mem_append.mp hsite with hhere | hlater
    · split at hhere
      · rw [mem_singleton.mp hhere]
      · exact absurd hhere not_mem_nil
    · exact (Nat.le_add_right pos _).trans (ih hlater)

theorem isHead_eq_true {previous : Bool} {segments : List Segment}
    (hhead : isHead isStep previous segment segments = true) :
    ∃ name, segment.token = some (.ident name) ∧ previous = false ∧ name ∉ accessorRoots ∧
      isStep name = true ∧ opensField segments = true := by
  rw [isHead] at hhead
  split at hhead
  · rename_i name htoken
    simp only [Bool.and_eq_true, Bool.not_eq_true', decide_eq_true_eq] at hhead
    exact ⟨name, htoken, hhead.1.1.1, hhead.1.1.2, hhead.1.2, hhead.2⟩
  · cases hhead

theorem mem_accessorHeads_later {pos : ℕ} {previous : Bool} {segments : List Segment}
    (hsite : site ∈ accessorHeads isStep pos previous (segment :: segments))
    (hlater : pos < site.1) : site ∈ accessorHeads isStep (pos + segment.text.length)
      (afterDot previous segment) segments := by
  rcases mem_append.mp hsite with hhere | hrest
  · split at hhere
    · rw [mem_singleton.mp hhere] at hlater
      exact absurd hlater (lt_irrefl pos)
    · exact absurd hhere not_mem_nil
  · exact hrest

theorem eq_of_mem_accessorHeads {pos : ℕ} {previous : Bool} {segments : List Segment}
    (hsite : site ∈ accessorHeads isStep pos previous (segment :: segments))
    (hhere : site.1 < pos + segment.text.length) :
    isHead isStep previous segment segments = true ∧ site = (pos, segment.text) := by
  rcases mem_append.mp hsite with hfirst | hrest
  · split at hfirst
    · exact ⟨‹_›, mem_singleton.mp hfirst⟩
    · exact absurd hfirst not_mem_nil
  · exact absurd (le_of_mem_accessorHeads hrest) (not_le.mpr hhere)

theorem scan_memory (after : List Char) :
    scan 'm' ("emory".toList ++ '.' :: after) = .ok (memorySegment, '.' :: after) := by
  apply Scanned.scan_eq
  refine .ident rfl "emory".toList ('.' :: after) ⟨rfl, all_eq_true.mp rfl, ?_⟩
  rintro _ ⟨⟩
  decide

end Segments

/-! ## The rewrite and the lexer -/

section Agreement

variable {isStep : String → Bool} {src : List Char} {segments : List Segment}

/-- If the scan replaces first words of accessors only, the lexer reads what it leaves as
the same stretches with those words replaced. -/
theorem lexes_rewritten (hlexes : Lexes src segments) {mode : Mode} {pos : ℕ} {previous : Bool}
    (hkept : mode = .fired false → ∀ c ∈ src.head?, isIdentRune c = false)
    (hsites : ∀ site ∈ sitesFrom isStep mode pos src,
      site ∈ accessorHeads isStep pos previous segments) :
    ∃ segments', Replaces isStep previous segments segments' ∧
      Lexes (rewriteFromMode isStep mode src) segments' := by
  induction hlexes generalizing mode pos previous with
  | nil => exact ⟨[], .nil previous, .nil⟩
  | @cons c cs rest segment segments hscan hrest ih =>
    obtain ⟨tail, htext, rfl⟩ := scan_text hscan
    have hlength : segment.text.length = tail.length + 1 := by rw [htext, length_cons]
    cases hreplaced : replaced isStep mode (c :: (tail ++ rest)) with
    | some word =>
      have hsite : (pos, word) ∈ sitesFrom isStep mode pos (c :: (tail ++ rest)) := by
        rw [sitesFrom, hreplaced]
        exact mem_cons_self
      obtain ⟨hhead, hword⟩ := eq_of_mem_accessorHeads (hsites _ hsite)
        (show pos < pos + segment.text.length by omega)
      obtain ⟨name, htoken, hprevious, -⟩ := isHead_eq_true hhead
      obtain rfl : word = c :: tail := (congrArg Prod.snd hword).trans htext
      obtain ⟨-, -, -, -, after, hafter⟩ := replaced_eq_some hreplaced
      obtain rfl : rest = '.' :: after := by
        rw [cons_append, List.cons.injEq] at hafter
        exact append_cancel_left hafter.2
      have hletters : ∀ d ∈ tail, isIdentRune d = true := by
        intro d hd
        exact scan_ident_word hscan htoken d (by rw [htext]; exact mem_cons_of_mem _ hd)
      have hnext := nextMode_of_replaced hreplaced
      have hdropped : previous = false → afterDot previous segment = false := by
        intro _
        rw [afterDot, htoken]
        rfl
      obtain ⟨segments', hreplaces, hlexes'⟩ := @ih (.fired false) (pos + segment.text.length)
        (afterDot previous segment) (fun _ d hd => by rw [← Option.some.inj hd]; decide) (by
          intro site hsite
          have hlater := le_of_mem_sitesFrom hsite
          apply mem_accessorHeads_later
          · apply hsites
            rw [sitesFrom, hnext, sitesFrom_fired false _ tail _ hletters]
            refine mem_append_right _ ?_
            convert hsite using 1
            congr 1
            omega
          · omega)
      refine ⟨memorySegment :: segments', .head hhead (hdropped hprevious ▸ hreplaces), ?_⟩
      rw [rewriteFromMode_cons, hnext, emitted, hreplaced,
        rewriteFromMode_fired false tail _ hletters]
      have hdot : rewriteFromMode isStep (.fired false) ('.' :: after) =
          '.' :: rewriteFromMode isStep .inside after := rfl
      rw [hdot] at hlexes' ⊢
      exact .cons (scan_memory _) hlexes'
    | none =>
      have hsplit : sitesFrom isStep mode pos (c :: tail ++ rest) = _ :=
        sitesFrom_append mode pos (c :: tail) rest
      have hnone : sitesIn isStep mode pos (c :: tail) rest = [] := by
        rw [eq_nil_iff_forall_not_mem]
        intro site hsite
        obtain ⟨hge, hlt⟩ := lt_of_mem_sitesIn hsite
        rw [← htext] at hlt
        have hmem : site ∈ sitesFrom isStep mode pos (c :: (tail ++ rest)) := by
          rw [← cons_append, hsplit]
          exact mem_append_left _ hsite
        obtain ⟨-, rfl⟩ := eq_of_mem_accessorHeads (hsites site hmem) hlt
        rw [sitesIn, hreplaced] at hsite
        have := (lt_of_mem_sitesIn hsite).1
        dsimp only at this
        omega
      have hkept' : mode = .fired false → ∀ d ∈ (c :: tail).head?, isIdentRune d = false :=
        fun h d hd => hkept h d hd
      obtain ⟨hcopied, hmode⟩ := rewriteFromMode_copies hnone hkept' (cons_ne_nil _ _)
      rw [hnone, nil_append] at hsplit
      obtain ⟨segments', hreplaces, hlexes'⟩ := @ih (modeAfter isStep mode (c :: tail) rest)
        (pos + segment.text.length) (afterDot previous segment) (fun h => absurd h hmode) (by
          intro site hsite
          have hlater := le_of_mem_sitesFrom hsite
          apply mem_accessorHeads_later
          · apply hsites
            rw [← cons_append, hsplit]
            rwa [htext] at hsite
          · omega)
      refine ⟨segment :: segments', .keep hreplaces, ?_⟩
      rw [← cons_append, hcopied, cons_append]
      refine .cons (scan_congr hscan htext ?_ ?_) hlexes'
      · intro hstops d hd
        rcases head?_rewriteFromMode hmode rest with hsame | ⟨-, hm⟩
        · exact hstops d (hsame ▸ hd)
        · rw [hm] at hd
          rw [← Option.some.inj hd]
          decide
      · intro name htoken d hd
        have hfree : modeAfter isStep mode (c :: tail) rest ≠ .free :=
          modeAfter_ne_free rest (cons_ne_nil _ _)
            (htext ▸ scan_ident_word hscan htoken)
        obtain ⟨tail', htext', -, -, hruns⟩ := scan_ident hscan htoken
        rcases head?_rewriteFromMode hmode rest with hsame | ⟨hm, -⟩
        · exact hruns.stops d (hsame ▸ hd)
        · exact absurd hm hfree

theorem eq_memoryWord (hword : ∀ c ∈ word, isIdentRune c = true)
    (heq : word ++ '.' :: after = memoryWord ++ '.' :: after') : word = memoryWord := by
  have hdot : ∀ d ∈ ('.' :: after).head?, isIdentRune d = false := by
    rintro _ ⟨⟩
    decide
  have hdot' : ∀ d ∈ ('.' :: after').head?, isIdentRune d = false := by
    rintro _ ⟨⟩
    decide
  have hleft : Runs isIdentRune (word ++ '.' :: after) word ('.' :: after) := ⟨rfl, hword, hdot⟩
  have hright : Runs isIdentRune (memoryWord ++ '.' :: after') memoryWord ('.' :: after') :=
    ⟨rfl, all_eq_true.mp rfl, hdot'⟩
  rw [← hleft.takeWhile_eq.1, heq, hright.takeWhile_eq.1]

/-- Two names, each before a character that ends it. -/
theorem eq_memoryWord_of_stops (hword : ∀ c ∈ word, isIdentChar c = true)
    (hstop : ∀ d ∈ after.head?, isIdentChar d = false)
    (hstop' : ∀ d ∈ after'.head?, isIdentChar d = false)
    (heq : word ++ after = memoryWord ++ after') : word = memoryWord ∧ after = after' := by
  have hleft : Runs isIdentChar (word ++ after) word after := ⟨rfl, hword, hstop⟩
  have hright : Runs isIdentChar (memoryWord ++ after') memoryWord after' := ⟨rfl, all_eq_true.mp rfl, hstop'⟩
  constructor
  · rw [← hleft.takeWhile_eq.1, heq, hright.takeWhile_eq.1]
  · rw [← hleft.takeWhile_eq.2, heq, hright.takeWhile_eq.2]

/-- What the scan leaves of a reference after `memory`. -/
theorem rewriteFromMode_dropped {cs : List Char} (hword : ∀ d ∈ word, isIdentRune d = true)
    (hcs : c :: cs = word ++ '.' :: after) (hne : word ≠ []) :
    rewriteFromMode isStep (.fired false) cs = '.' :: rewriteFromMode isStep .inside after := by
  cases word with
  | nil => exact absurd rfl hne
  | cons d word =>
    obtain rfl : cs = word ++ '.' :: after := (List.cons.inj hcs).2
    rw [rewriteFromMode_fired false word _ fun e he => hword e (mem_cons_of_mem _ he)]
    rfl

theorem isIdentStart_of_isIdentChar (hc : isIdentChar c = false) : isIdentStart c = false :=
  (Bool.or_eq_false_iff.mp hc).1

/-- A change of first words of accessors leaves the first character, unless it is that of a
name. -/
theorem head?_textOf {previous : Bool} (hlexes : Lexes rest segments)
    (hreplaces : Replaces isStep previous segments segments')
    (hstart : ∀ d ∈ rest.head?, isIdentStart d = false) :
    (textOf segments').head? = rest.head? := by
  cases hlexes with
  | nil =>
    cases hreplaces
    rfl
  | cons hscan =>
    cases hreplaces with
    | keep =>
      obtain ⟨tail, htext, -⟩ := scan_text hscan
      rw [textOf, flatMap_cons, htext]
      rfl
    | head hhead =>
      obtain ⟨name, htoken, -⟩ := isHead_eq_true hhead
      obtain ⟨-, -, -, hletter, -⟩ := scan_ident hscan htoken
      exact absurd hletter (by simp [hstart _ rfl])

theorem isIdentRune_of_opensField (hlexes : Lexes rest segments)
    (hopens : opensField segments = true) : ∀ d ∈ rest.head?, isIdentRune d = false := by
  cases hlexes with
  | nil => cases hopens
  | @cons c cs rest segment segments hscan hrest =>
    rintro _ ⟨⟩
    have hfits := charClass_fits c
    have hdot : ∀ token, segment.token = some token → token = .dot := by
      intro token htoken
      rw [opensField, tokensOf, filterMap_cons, htoken] at hopens
      dsimp only at hopens
      split at hopens
      · rename_i heq
        exact (List.cons.inj heq).1
      · cases hopens
    cases scan_cases hscan with
    | blank hclass =>
      rw [hclass] at hfits
      exact isIdentRune_of_isBlank hfits
    | mark token hclass =>
      rw [hclass, hdot token rfl] at hfits
      rcases hfits with hfits | hfits | hfits
      · cases hfits.1
      · cases hfits.1
      · rw [hfits.2]
        decide
    | operator token alone hclass =>
      rw [hclass, hdot token rfl] at hfits
      rcases hfits with hfits | hfits <;> cases hfits.1
    | string | number | ident => cases hdot _ rfl

section

variable (hscan : scan c (tail ++ rest) = .ok (segment, rest)) (htext : segment.text = c :: tail)

include hscan htext

theorem not_word_of_scan {before : List Char} (hsplit : c :: tail = before ++ 'm' :: after)
    (hword : ∀ d ∈ 'm' :: after, isIdentRune d = true) :
    ∃ name, segment.token = some (.ident name) := by
  have hfits := charClass_fits c
  have hm : 'm' ∈ c :: tail := by
    rw [hsplit]
    simp
  generalize tail ++ rest = cs at hscan
  cases scan_cases hscan with
  | blank hclass =>
    obtain rfl : [] = tail := (List.cons.inj htext).2
    rw [hclass, ← mem_singleton.mp hm] at hfits
    nomatch show isBlank 'm' = true from hfits
  | mark token hclass =>
    obtain rfl : [] = tail := (List.cons.inj htext).2
    rw [hclass, ← mem_singleton.mp hm] at hfits
    exact absurd hfits (by simp [CharClass.Fits])
  | operator token alone hclass =>
    obtain rfl : ['='] = tail := (List.cons.inj htext).2
    have hc : 'm' = c := by simpa using hm
    rw [hclass, ← hc] at hfits
    exact absurd hfits (by simp [CharClass.Fits])
  | string hclass body =>
    -- the closing quote ends every word
    obtain rfl : body ++ [c] = tail := (List.cons.inj htext).2
    have hlast : c ∈ 'm' :: after := by
      have hlasts := congrArg List.getLast? hsplit
      rw [← cons_append, getLast?_concat, getLast?_append_of_ne_nil _
        (cons_ne_nil _ _)] at hlasts
      exact mem_of_getLast? hlasts.symm
    have hquote : isIdentRune c = false := by
      rw [hclass] at hfits
      simp only [CharClass.Fits, isQuote, Bool.or_eq_true, decide_eq_true_eq] at hfits
      rcases hfits with rfl | rfl <;> decide
    exact absurd (hword c hlast) (by simp [hquote])
  | number hclass number rest hruns =>
    obtain rfl : number = tail := (List.cons.inj htext).2
    rcases mem_cons.mp hm with hc | hin
    · rcases hclass with hclass | ⟨hclass, -⟩
      · rw [hclass, ← hc] at hfits
        nomatch show isDigit 'm' = true from hfits
      · rw [hclass, ← hc] at hfits
        nomatch show 'm' = '-' from hfits
    · nomatch hruns.inside 'm' hin
  | ident => exact ⟨_, rfl⟩

/-- Where the scan leaves a stretch as it is, it replaces nothing in it. -/
theorem sitesIn_of_kept {mode : Mode} {pos : ℕ}
    (hkept : mode = .fired false → ∀ d ∈ (c :: tail).head?, isIdentRune d = false)
    (hrest : (∀ d ∈ rest.head?, isIdentStart d = false) → rest'.head? = rest.head?)
    (heq : rewriteFromMode isStep mode (c :: tail ++ rest) = c :: tail ++ rest') :
    sitesIn isStep mode pos (c :: tail) rest = [] := by
  have hfirst : sitesIn isStep mode pos (c :: tail) rest = [] ∨ _ := first_site hkept
  rcases hfirst with hnone | ⟨before, d, after, word, hsplit, hreplaced, hout⟩
  · exact hnone
  · exfalso
    obtain ⟨hfree, hword, hne, hmemory, next, hnext⟩ := replaced_eq_some hreplaced
    have hletters : ∀ e ∈ word, isIdentRune e = true := by
      rw [hword]
      exact fun e he => mem_takeWhile_imp he
    rw [cons_append] at hnext
    rw [heq, hsplit, rewriteFromMode_dropped hletters hnext hne, append_assoc,
      append_assoc, append_cancel_left_eq] at hout
    obtain rfl : d = 'm' := (List.cons.inj hout).1
    rw [← cons_append] at hnext
    have hcut : (∃ more, word = 'm' :: after ++ more ∧ rest = more ++ '.' :: next) ∨
        ∃ more, 'm' :: after = word ++ '.' :: more := by
      rcases append_eq_append_iff.mp hnext with hlong | ⟨_ | ⟨e, more⟩, hmore, hrest'⟩
      · exact .inl hlong
      · exact .inl ⟨[], by rw [hmore, append_nil, append_nil], hrest'.symm⟩
      · obtain rfl : '.' = e := (List.cons.inj hrest').1
        exact .inr ⟨more, hmore⟩
    rcases hcut with ⟨more, hmore, hrest'⟩ | ⟨more, hmore⟩
    · -- the word reaches the end of the stretch
      have hprefix : ∀ e ∈ 'm' :: after, isIdentRune e = true := by
        intro e he
        apply hletters
        rw [hmore]
        exact mem_append_left _ he
      obtain ⟨name, htoken⟩ := not_word_of_scan hscan htext hsplit hprefix
      obtain ⟨tail', htext', -, -, hruns⟩ := scan_ident hscan htoken
      obtain rfl : tail = tail' := (List.cons.inj (htext.symm.trans htext')).2
      obtain rfl : before = [] := by
        by_contra hbefore
        refine modeAfter_ne_free _ hbefore ?_ hfree
        intro e he
        refine scan_ident_word hscan htoken e ?_
        rw [htext, hsplit]
        exact mem_append_left _ he
      rw [nil_append] at hsplit
      have hhead := hrest fun e he => isIdentStart_of_isIdentChar (hruns.stops e he)
      have hname : ∀ e ∈ c :: tail, isIdentChar e = true := htext ▸ scan_ident_chars hscan htoken
      rw [← hsplit] at hout hmore
      obtain ⟨hsame, hafter⟩ := eq_memoryWord_of_stops hname
        (fun e he => hruns.stops e (hhead ▸ he)) (by rintro _ ⟨⟩; decide) hout
      -- so the word is the name, and the name is `memory`
      have hdot : rest.head? = some '.' := by rw [← hhead, hafter]; rfl
      obtain rfl : more = [] := by
        cases more with
        | nil => rfl
        | cons e =>
          rw [hrest'] at hdot
          have he : isIdentRune e = true := hletters e (by rw [hmore]; simp)
          rw [Option.some.inj hdot] at he
          nomatch he
      rw [append_nil] at hmore
      exact hmemory (hmore.trans hsame)
    · rw [hmore, append_assoc] at hout
      exact hmemory (eq_memoryWord hletters hout)

theorem replaced_of_head {mode : Mode} {previous : Bool} (hlexes : Lexes rest segments)
    (hhead : isHead isStep previous segment segments = true)
    (hkept : mode = .fired false → ∀ d ∈ (c :: tail).head?, isIdentRune d = false)
    (hrest : (∀ d ∈ rest.head?, isIdentStart d = false) → rest'.head? = rest.head?)
    (heq : rewriteFromMode isStep mode (c :: tail ++ rest) = memoryWord ++ rest') :
    replaced isStep mode (c :: (tail ++ rest)) = some (c :: tail) := by
  obtain ⟨name, htoken, -, hroot, -, hopens⟩ := isHead_eq_true hhead
  obtain ⟨tail', htext', hname, -, hruns⟩ := scan_ident hscan htoken
  obtain rfl : tail = tail' := (List.cons.inj (htext.symm.trans htext')).2
  have hword : ∀ d ∈ c :: tail, isIdentRune d = true := htext ▸ scan_ident_word hscan htoken
  have hletters : ∀ d ∈ c :: tail, isIdentChar d = true := htext ▸ scan_ident_chars hscan htoken
  cases hreplaced : replaced isStep mode (c :: (tail ++ rest)) with
  | some =>
    have hcut : Runs isIdentRune (c :: tail ++ rest) (c :: tail) rest :=
      ⟨rfl, hword, isIdentRune_of_opensField hlexes hopens⟩
    obtain ⟨-, hword', -⟩ := replaced_eq_some hreplaced
    rw [hword', ← cons_append, hcut.takeWhile_eq.1]
  | none =>
    exfalso
    -- inside a name the scan has no other place to replace a word
    have hnone : sitesIn isStep mode 0 (c :: tail) rest = [] := by
      have hfirst : sitesIn isStep mode 0 (c :: tail) rest = [] ∨ _ := first_site hkept
      rcases hfirst with hnone | ⟨before, d, after, word, hsplit, hword', -⟩
      · exact hnone
      · exfalso
        cases before with
        | nil =>
          rw [nil_append, List.cons.injEq] at hsplit
          obtain ⟨rfl, rfl⟩ := hsplit
          nomatch hreplaced.symm.trans hword'
        | cons e before =>
          refine modeAfter_ne_free _ (cons_ne_nil e before) ?_ (replaced_eq_some hword').1
          intro x hx
          apply hword
          rw [hsplit]
          exact mem_append_left _ hx
    obtain ⟨hcopied, hmode⟩ := rewriteFromMode_copies hnone hkept (cons_ne_nil _ _)
    have hfree : modeAfter isStep mode (c :: tail) rest ≠ .free :=
      modeAfter_ne_free rest (cons_ne_nil _ _) hword
    have hsame : (rewriteFromMode isStep (modeAfter isStep mode (c :: tail) rest) rest).head? =
        rest.head? :=
      (head?_rewriteFromMode hmode rest).resolve_right fun h => hfree h.1
    have hhead' := hrest fun d hd => isIdentStart_of_isIdentChar (hruns.stops d hd)
    have hmemory := (eq_memoryWord_of_stops hletters (fun d hd => hruns.stops d (hsame ▸ hd))
      (fun d hd => hruns.stops d (hhead' ▸ hd)) (hcopied.symm.trans heq)).1
    rw [hname, hmemory] at hroot
    exact hroot (by decide)

end

theorem heads_of_rewritten (hlexes : Lexes src segments) {mode : Mode} {pos : ℕ} {previous : Bool}
    (hkept : mode = .fired false → ∀ c ∈ src.head?, isIdentRune c = false)
    (hreplaces : Replaces isStep previous segments segments')
    (heq : rewriteFromMode isStep mode src = textOf segments') :
    ∀ site ∈ sitesFrom isStep mode pos src, site ∈ accessorHeads isStep pos previous segments := by
  induction hlexes generalizing mode pos previous segments' with
  | nil => exact fun site hsite => absurd hsite not_mem_nil
  | @cons c cs rest segment segments hscan hrest ih =>
    obtain ⟨tail, htext, rfl⟩ := scan_text hscan
    have hlength : segment.text.length = tail.length + 1 := by rw [htext, length_cons]
    have hkept' : mode = .fired false → ∀ d ∈ (c :: tail).head?, isIdentRune d = false :=
      fun h d hd => hkept h d hd
    cases hreplaces with
    | @keep _ _ _ segments' hlater =>
      rw [textOf, flatMap_cons, htext, ← textOf] at heq
      have hnone : sitesIn isStep mode pos (c :: tail) rest = [] :=
        sitesIn_of_kept hscan htext hkept' (head?_textOf hrest hlater) heq
      obtain ⟨hcopied, hmode⟩ := rewriteFromMode_copies hnone hkept' (cons_ne_nil _ _)
      rw [← cons_append, hcopied, append_cancel_left_eq] at heq
      intro site hsite
      rw [← cons_append, sitesFrom_append, hnone, nil_append] at hsite
      refine mem_append_right _ ?_
      rw [htext]
      exact ih (fun h => absurd h hmode) hlater heq site hsite
    | @head _ _ _ segments' hhead hlater =>
      rw [textOf, flatMap_cons, ← textOf] at heq
      have hreplaced := replaced_of_head hscan htext hrest hhead hkept'
        (head?_textOf hrest hlater) heq
      obtain ⟨name, htoken, hprevious, -, -, hopens⟩ := isHead_eq_true hhead
      have hletters : ∀ d ∈ tail, isIdentRune d = true := by
        intro d hd
        exact scan_ident_word hscan htoken d (by rw [htext]; exact mem_cons_of_mem _ hd)
      have hnext := nextMode_of_replaced hreplaced
      rw [rewriteFromMode_cons, hnext, emitted, hreplaced,
        rewriteFromMode_fired false tail _ hletters] at heq
      have hdot : afterDot previous segment = false := by rw [afterDot, htoken]; rfl
      intro site hsite
      rw [sitesFrom, hnext, hreplaced, sitesFrom_fired false _ tail _ hletters] at hsite
      rcases mem_append.mp hsite with hhere | hsite
      · refine mem_append_left _ ?_
        rw [if_pos hhead, htext]
        exact hhere
      · refine mem_append_right _ ?_
        have hposition : pos + 1 + tail.length = pos + segment.text.length := by omega
        rw [hposition] at hsite
        exact ih (fun _ => isIdentRune_of_opensField hrest hopens) (hdot ▸ hlater)
          (append_cancel_left heq) site hsite

/-- The scan leaves a text as it is exactly if it replaces nothing in it. -/
theorem rewriteFromMode_eq_self (cs : List Char) :
    rewriteFromMode isStep .free cs = cs ↔ sitesFrom isStep .free 0 cs = [] := by
  cases cs with
  | nil => exact ⟨fun _ => rfl, fun _ => rfl⟩
  | cons c cs =>
    have hsplit : sitesFrom isStep .free 0 (c :: cs) = sitesIn isStep .free 0 (c :: cs) [] := by
      have happend : sitesFrom isStep .free 0 (c :: cs ++ []) = _ :=
        sitesFrom_append .free 0 (c :: cs) []
      rwa [append_nil, sitesFrom, append_nil] at happend
    constructor
    · intro heq
      have hfirst : sitesIn isStep .free 0 (c :: cs) [] = [] ∨ _ := first_site (by simp)
      rcases hfirst with hnone | ⟨before, d, after, word, htext, hreplaced, hout⟩
      · rw [hsplit, hnone]
      · exfalso
        obtain ⟨-, hword, hne, hmemory, next, hnext⟩ := replaced_eq_some hreplaced
        have hletters : ∀ e ∈ word, isIdentRune e = true := by
          rw [hword]
          exact fun e he => mem_takeWhile_imp he
        rw [append_nil, heq, htext, append_nil,
          rewriteFromMode_dropped hletters (append_nil _ ▸ hnext) hne, append_assoc,
          append_cancel_left_eq] at hout
        rw [append_nil] at hnext
        exact hmemory (eq_memoryWord hletters (hnext.symm.trans hout))
    · intro hnone
      rw [hsplit] at hnone
      have hcopied := (rewriteFromMode_copies hnone (by simp) (cons_ne_nil _ _)).1
      rwa [append_nil, rewriteFromMode, append_nil] at hcopied

theorem replaces_eq {previous : Bool} {pos : ℕ}
    (hdocumented : accessorHeads (fun _ => true) pos previous segments = [])
    (hreplaces : Replaces isStep previous segments segments') : segments' = segments := by
  induction hreplaces generalizing pos with
  | nil => rfl
  | keep hrest ih =>
    rw [accessorHeads, append_eq_nil_iff] at hdocumented
    rw [ih hdocumented.2]
  | @head previous segment segments _ hhead hrest ih =>
    rw [accessorHeads, append_eq_nil_iff] at hdocumented
    have hany : isHead (fun _ => true) previous segment segments = true := by
      obtain ⟨name, htoken, hprevious, hroot, -, hopens⟩ := isHead_eq_true hhead
      simp [isHead, htoken, hprevious, hroot, hopens]
    rw [if_pos hany] at hdocumented
    cases hdocumented.1

end Agreement

theorem rewriteStepRefs_toList (isStep : String → Bool) (src : String) :
    (rewriteStepRefs isStep src).toList = rewriteFromMode isStep .free src.toList := by
  rw [rewriteStepRefs, String.toList_ofList, rewriteFrom_eq le_rfl]

theorem rewriteStepRefs_documented {isStep : String → Bool} {src : String}
    (hchanges : ChangesOnlyStepOutputs isStep src) (hdocumented : documented src = true) :
    rewriteStepRefs isStep src = src := by
  rw [ChangesOnlyStepOutputs] at hchanges
  rw [documented] at hdocumented
  split at hchanges
  · rename_i hfound
    rw [hfound] at hdocumented
    obtain ⟨segments', hreplaces, hrewritten⟩ := hchanges
    rw [replaces_eq (of_decide_eq_true hdocumented) hreplaces] at hrewritten
    apply String.toList_inj.mp
    rw [← (segments_eq_ok.mp hrewritten).textOf_eq, ← (segments_eq_ok.mp hfound).textOf_eq]
  · exact hchanges

theorem changesOnlyStepOutputs_iff (isStep : String → Bool) (src : String) :
    ChangesOnlyStepOutputs isStep src ↔ replacesHeads isStep src = true := by
  rw [ChangesOnlyStepOutputs, replacesHeads]
  cases hfound : segments src with
  | error =>
    rw [decide_eq_true_eq, ← rewriteFromMode_eq_self, ← rewriteStepRefs_toList, String.toList_inj]
  | ok =>
    have hlexes := segments_eq_ok.mp hfound
    simp only [segments_eq_ok, rewriteStepRefs_toList, all_eq_true, decide_eq_true_eq]
    constructor
    · rintro ⟨segments', hreplaces, hrewritten⟩
      exact heads_of_rewritten hlexes (by simp) hreplaces hrewritten.textOf_eq.symm
    · intro hsites
      exact lexes_rewritten hlexes (by simp) hsites

/-- The rewrite changes accessors to step outputs only, as the lexer cuts the expression,
exactly if every word it replaces is the first word of such an accessor.  Then an
expression over the documented roots has the same value after it. -/
theorem rewrite_changes_only_step_outputs (isStep : String → Bool) (src : String) :
    (ChangesOnlyStepOutputs isStep src ↔ replacesHeads isStep src = true) ∧
      (replacesHeads isStep src = true → documented src = true →
        ∀ (ops : Ops) (concurrency : ℕ) (ctx : Workflow.EvalContext),
          Workflow.evalExpr (engine ops concurrency) (rewriteStepRefs isStep src) ctx =
            Workflow.evalExpr (engine ops concurrency) src ctx) := by
  refine ⟨changesOnlyStepOutputs_iff isStep src, ?_⟩
  intro hheads hdocumented ops concurrency ctx
  rw [rewriteStepRefs_documented ((changesOnlyStepOutputs_iff isStep src).mpr hheads) hdocumented]

/-- A gate on the verdict of a review. -/
def rejected : String := "review.verdict == 'reject' and memory.track != 'docs'"

theorem rejected_changes_only_review : ChangesOnlyStepOutputs (· = "review") rejected ∧
      rewriteStepRefs (· = "review") rejected = "memory.verdict == 'reject' and memory.track != 'docs'" :=
  ⟨(rewrite_changes_only_step_outputs (· = "review") rejected).1.mpr (by decide +kernel),
    by decide +kernel⟩

/-- A step that failed. -/
def testsFailed : Workflow.EvalContext where
  cell := {}
  memory := fun _ => none
  steps := fun id => if id = "tests" then some { state := .failed } else none
  event := fun _ => none

/-- The documented way to branch on the outcome of a step loses the id of the step, and the
branch is not taken. -/
theorem steps_accessor_rewritten : let src := "steps.tests.state == 'failed'"
    documented src = true ∧ ¬ ChangesOnlyStepOutputs (· = "tests") src ∧
      rewriteStepRefs (· = "tests") src = "steps.memory.state == 'failed'" ∧
      Workflow.evalExpr (engine textOps 1) src testsFailed = .ok true ∧
      Workflow.evalExpr (engine textOps 1) (rewriteStepRefs (· = "tests") src) testsFailed =
        .ok false := by
  intro src
  have hheads : ¬ replacesHeads (· = "tests") src = true := by decide +kernel
  refine ⟨by decide +kernel, ?_, by decide +kernel, by decide +kernel, by decide +kernel⟩
  exact fun hchanges => hheads ((changesOnlyStepOutputs_iff _ src).mp hchanges)

end Apiary.Config
