import Apiary.Config.Guards

/-!
# Expressions with and without their delimiters

Validation strips the optional delimiters of an expression, and the white space around
it, before it parses the text.  So does the engine before it evaluates a condition, a
gate or a join.  The branch of a split is parsed as it is written.
-/

namespace Apiary.Config

open Workflow Apiary.Expr List

variable {source : String}

/-- Where a step carries an expression. -/
inductive Place where
  | condition
  | gate
  | branch
  | join
  deriving DecidableEq

/-- `LintExpr`. -/
def lintExpr (source : String) : Bool := (parseExpr (stripExprDelimiters source)).toOption.isSome

def isWrapped (source : String) : Bool :=
  "$\x7b\x7b".toList.isPrefixOf (trimSpace source.toList) &&
    "\x7d\x7d".toList.isSuffixOf (trimSpace source.toList)

/-- A join other than `all` and `any` must have the delimiters. -/
def Place.accepts (place : Place) (source : String) : Bool :=
  (place ≠ .join || isWrapped source) && lintExpr source

/-- The text that the engine parses. -/
def Place.parsed : Place → String → String
  | .branch, source => source
  | _, source => stripExprDelimiters source

/-- The expressions of a step that validation parses. -/
def lintedExprs (s : StepConfig) : List (Place × String) :=
  [(.condition, s.condition), (.gate, s.failWhen)].filter (·.2 ≠ "") ++
    (s.branches.filter (·.cond ≠ "")).map (fun b => (.branch, b.cond)) ++
    if s.type = .parallel ∧ s.join ∉ ["", "all", "any"] then [(.join, s.join)] else []

/-- `lintStepExprs` and the check of the join find no error.  Validation makes them for
the children of a group and for the body of a foreach step as well. -/
def exprsAccepted (s : StepConfig) : Bool := (lintedExprs s).all fun expr => expr.1.accepts expr.2

/-- The expressions of a step that the engine can come to evaluate. -/
def evaluatedExprs (s : StepConfig) : List (Place × String) :=
  [(.condition, s.condition), (.gate, s.failWhen)].filter (·.2 ≠ "") ++
    (if s.type = .split then (s.branches.filter (!·.isFallback)).map fun b => (.branch, b.cond)
      else []) ++
    if s.type = .parallel ∧ s.join ∉ ["", "all", "any"] then [(.join, s.join)] else []

/-- The text parses where the engine evaluates it, to what it says without delimiters. -/
def Denotes (place : Place) (source : String) : Prop :=
  ∃ node, parseExpr (place.parsed source) = .ok node ∧
    parseExpr (place.parsed (stripExprDelimiters source)) = .ok node

/-- The lexer reads the text as it is written: it has no delimiters, and around it no white
space but blanks, tabs and line ends. -/
def IsBare (source : String) : Prop := ∃ segments, Lexes source.toList segments

/-! ## White space and the lexer -/

theorem isStop_of_isSpace {c : Char} (hc : isSpace c = true) : isStop c = true := by
  have hcode : c.toNat < 0x2E ∨ 0x7F < c.toNat := by
    simp only [isSpace, mem_cons, not_mem_nil, or_false, Bool.or_eq_true,
      Bool.and_eq_true, decide_eq_true_eq] at hc
    omega
  have hne : ∀ d : Char, 0x2D < d.toNat → d.toNat < 0x7F → c ≠ d := by
    rintro d hlow hhigh rfl
    omega
  have hrange : ∀ a b : Char, 0x2D < a.toNat → b.toNat < 0x7F → (a ≤ c && c ≤ b) = false := by
    intro a b hlow hhigh
    rw [Bool.eq_false_iff]
    intro hin
    simp only [Bool.and_eq_true, decide_eq_true_eq, Char.le_def, UInt32.le_iff_toNat_le] at hin
    have hlower : a.toNat ≤ c.toNat := hin.1
    have hupper : c.toNat ≤ b.toNat := hin.2
    omega
  simp [isStop, isIdentChar, isIdentStart, isNumberChar, isDigit, hrange 'a' 'z', hrange 'A' 'Z',
    hrange '0' '9', hne '_', hne '.']

/-- White space is in no class but the blanks, so that the lexer skips it or fails. -/
theorem charClass_space {c : Char} (hc : isSpace c = true) :
    charClass c = .blank ∨ ∃ message, charClass c = .unsupported message := by
  have hfits := charClass_fits c
  have hstop := isStop_of_isSpace hc
  have hne : ∀ d, isSpace d = false → c ≠ d := by
    rintro d hd rfl
    simp [hd] at hc
  cases hclass : charClass c <;> rw [hclass] at hfits <;>
    simp only [CharClass.Fits, isQuote, Bool.or_eq_true, decide_eq_true_eq] at hfits
  case blank => exact .inl rfl
  case unsupported message => exact .inr ⟨message, rfl⟩
  case mark => simp [hne '(' (by decide), hne ')' (by decide), hne '.' (by decide)] at hfits
  case operator => simp [hne '=' (by decide), hne '!' (by decide)] at hfits
  case quote => simp [hne '\x22' (by decide), hne '\x27' (by decide)] at hfits
  case minus => exact absurd hfits (hne '-' (by decide))
  case digit => simp [isStop, isNumberChar, hfits] at hstop
  case letter => simp [isStop, isIdentChar, hfits] at hstop

theorem Lexes.dropWhile_space {source : List Char} {segments : List Segment}
    (hlexes : Lexes source segments) : (∀ c ∈ source.takeWhile isSpace, Expr.isBlank c = true) ∧
      ∃ segments', Lexes (source.dropWhile isSpace) segments' ∧
        tokensOf segments' = tokensOf segments := by
  induction hlexes with
  | nil => exact ⟨by simp, [], .nil, rfl⟩
  | cons hscan hrest ih =>
    rename_i c cs rest segment segments
    by_cases hc : isSpace c = true
    · rcases charClass_space hc with hclass | ⟨message, hclass⟩
      · have hfits := charClass_fits c
        rw [hclass] at hfits
        rw [scan, hclass] at hscan
        cases hscan
        rw [takeWhile_cons_of_pos hc, dropWhile_cons_of_pos hc, forall_mem_cons]
        exact ⟨⟨hfits, ih.1⟩, ih.2⟩
      · rw [scan, hclass] at hscan
        cases hscan
    · rw [takeWhile_cons_of_neg hc, dropWhile_cons_of_neg hc]
      exact ⟨by simp, _, .cons hscan hrest, rfl⟩

theorem tokensOf_space {source : List Char} {segments : List Segment}
    (hlexes : Lexes source segments) (hspace : ∀ c ∈ source, isSpace c = true) :
    tokensOf segments = [] := by
  obtain ⟨-, segments', hlexes', htokens⟩ := Lexes.dropWhile_space hlexes
  rw [dropWhile_eq_nil_iff.mpr hspace] at hlexes'
  cases hlexes'
  exact htokens.symm

/-! ## Where the two readings differ -/

theorem strip_of_not_opening
    (hopen : "$\x7b\x7b".toList.isPrefixOf (trimSpace source.toList) = false) :
    stripExprDelimiters source = trimmed source := by
  rw [stripExprDelimiters, hopen, Bool.false_and, if_neg (by simp), trimmed]

/-- A text that the lexer reads as it is written means what it means without delimiters. -/
theorem parseExpr_bare {node : Node} (hbare : IsBare source)
    (hnode : parseExpr (stripExprDelimiters source) = .ok node) : parseExpr source = .ok node := by
  obtain ⟨segments, hlexes⟩ := hbare
  obtain ⟨-, segments', hlexes', htokens'⟩ := Lexes.dropWhile_space hlexes
  have hparts : trimSpace source.toList ++ (source.toList.dropWhile isSpace).rtakeWhile isSpace =
      source.toList.dropWhile isSpace := rdropWhile_append_rtakeWhile
  rw [← hparts] at hlexes'
  rw [strip_of_not_opening (not_opening_of_lexes hlexes')] at hnode
  obtain ⟨tokens, hlex, hparse⟩ := parseExpr_eq_ok.mp hnode
  obtain ⟨body, hbody, rfl⟩ := lex_eq_ok.mp hlex
  rw [trimmed_toList] at hbody
  have hspace : ∀ c ∈ (source.toList.dropWhile isSpace).rtakeWhile isSpace, isSpace c = true :=
    fun c hc => mem_rtakeWhile_imp hc
  obtain ⟨more, hmore, rfl⟩ := hbody.of_append
    (fun c hc => isStop_of_isSpace (hspace c (mem_of_mem_head? hc))) hlexes'
  refine parseExpr_eq_ok.mpr ⟨tokensOf body, lex_eq_ok.mpr ⟨segments, hlexes, ?_⟩, hparse⟩
  rw [← htokens', tokensOf, filterMap_append, ← tokensOf, ← tokensOf, tokensOf_space hmore hspace,
    append_nil]

theorem denotes_iff {place : Place} (haccepts : place.accepts source = true) :
    Denotes place source ↔ (place = .branch → IsBare source) := by
  have hlint := (Bool.and_eq_true_iff.mp haccepts).2
  obtain ⟨node, hnode⟩ : ∃ node, parseExpr (stripExprDelimiters source) = .ok node := by
    rw [lintExpr] at hlint
    cases hparse : parseExpr (stripExprDelimiters source) with
    | error => simp [hparse, Except.toOption] at hlint
    | ok node => exact ⟨node, rfl⟩
  have hagain : stripExprDelimiters (stripExprDelimiters source) = stripExprDelimiters source := by
    have htrimmed : trimmed (stripExprDelimiters source) = stripExprDelimiters source := by
      rw [stripExprDelimiters]
      split <;> rw [trimmed, String.toList_ofList, trimSpace_trimSpace]
    have hopen := parseExpr_no_delimiter hnode
    rw [← htrimmed, trimmed_toList] at hopen
    rw [strip_of_not_opening hopen, htrimmed]
  by_cases hplace : place = .branch
  · subst hplace
    constructor
    · rintro ⟨node', hparsed, -⟩ -
      obtain ⟨tokens, hlex, -⟩ := parseExpr_eq_ok.mp hparsed
      obtain ⟨segments, hlexes, -⟩ := lex_eq_ok.mp hlex
      exact ⟨segments, hlexes⟩
    · intro hbare
      exact ⟨node, parseExpr_bare (hbare rfl) hnode, hnode⟩
  · have hparsed : ∀ text, place.parsed text = stripExprDelimiters text := by
      intro text
      cases place <;> first | rfl | exact absurd rfl hplace
    refine ⟨fun _ h => absurd h hplace, fun _ => ⟨node, ?_, ?_⟩⟩
    · rw [hparsed, hnode]
    · rw [hparsed, hagain, hnode]

theorem mem_linted_of_evaluated {s : StepConfig} {expr : Place × String}
    (hexpr : expr ∈ evaluatedExprs s) : expr ∈ lintedExprs s := by
  rw [evaluatedExprs, mem_append, mem_append] at hexpr
  rw [lintedExprs, mem_append, mem_append]
  refine hexpr.imp_left (Or.imp_right ?_)
  intro hbranch
  split at hbranch
  · obtain ⟨b, hb, rfl⟩ := mem_map.mp hbranch
    rw [mem_filter, SplitBranch.isFallback] at hb
    refine mem_map_of_mem (mem_filter.mpr ⟨hb.1, ?_⟩)
    simp_all
  · simp at hbranch

/-- The expressions of a validated step parse where they are evaluated, to what they say
without delimiters, exactly when the branches of a split are written bare. -/
theorem exprs_denote_iff (s : StepConfig) (haccepted : exprsAccepted s = true) :
    (∀ expr ∈ evaluatedExprs s, Denotes expr.1 expr.2) ↔
      ∀ expr ∈ evaluatedExprs s, expr.1 = .branch → IsBare expr.2 := by
  have haccepts : ∀ expr ∈ evaluatedExprs s, expr.1.accepts expr.2 = true := by
    intro expr hexpr
    exact all_eq_true.mp haccepted expr (mem_linted_of_evaluated hexpr)
  constructor
  · intro hall expr hexpr
    exact (denotes_iff (haccepts expr hexpr)).mp (hall expr hexpr)
  · intro hbare expr hexpr
    exact (denotes_iff (haccepts expr hexpr)).mpr (hbare expr hexpr)

/-- A split on the type of the item, with delimiters or without. -/
def bySplit (source : String) : StepConfig where
  id := "by-type"
  type := .split
  branches := [{ cond := source, goto := "fix" }, { isElse := true, goto := "build" }]

theorem bare_branch_denotes : exprsAccepted (bySplit "cell.type == 'bug'") = true ∧
      ∀ expr ∈ evaluatedExprs (bySplit "cell.type == 'bug'"), Denotes expr.1 expr.2 := by
  refine ⟨by decide +kernel, (exprs_denote_iff _ (by decide +kernel)).mpr ?_⟩
  intro expr hexpr _
  obtain rfl : expr = (.branch, "cell.type == 'bug'") := mem_singleton.mp hexpr
  have hlex : (lex "cell.type == 'bug'").toOption.isSome = true := by decide +kernel
  cases hok : lex "cell.type == 'bug'" with
  | error => simp [hok, Except.toOption] at hlex
  | ok =>
    obtain ⟨segments, hlexes, -⟩ := lex_eq_ok.mp hok
    exact ⟨segments, hlexes⟩

/-- Validation accepts the delimiters of a branch, and the engine does not. -/
theorem wrapped_branch_not_denoted :
    exprsAccepted (bySplit "$\x7b\x7b cell.type == 'bug' \x7d\x7d") = true ∧
      (.branch, "$\x7b\x7b cell.type == 'bug' \x7d\x7d") ∈
        evaluatedExprs (bySplit "$\x7b\x7b cell.type == 'bug' \x7d\x7d") ∧
      ¬ Denotes .branch "$\x7b\x7b cell.type == 'bug' \x7d\x7d" := by
  refine ⟨by decide +kernel, by decide +kernel, ?_⟩
  rintro ⟨node, hparsed, -⟩
  have hopen := parseExpr_no_delimiter hparsed
  revert hopen
  decide +kernel

end Apiary.Config
