import Apiary.Expr.Grammar

/-!
# Printing condition expressions

A tree is printed as tokens, with parentheses where its level asks for them, and the
tokens as text, with blanks where two of them would run together or a reader expects one.
The lexer reads the tokens back and the parser the tree.
-/

namespace Apiary.Expr

open List Derives

/-! ## Tokens as text -/

def isIdent : List Char → Bool
  | c :: cs => isIdentStart c && cs.all isIdentChar
  | [] => false

/-- A number may have a sign and any dots behind its first digit. -/
def isNumber : List Char → Bool
  | '-' :: c :: cs => isDigit c && cs.all isNumberChar
  | c :: cs => isDigit c && cs.all isNumberChar
  | [] => false

/-- The quote that a text can be put in. -/
def quoteOf (text : List Char) : Char := if '\x22' ∈ text then '\x27' else '\x22'

def Token.spell : Token → List Char
  | .ident name => name.toList
  | .string text => quoteOf text.toList :: text.toList ++ [quoteOf text.toList]
  | .number text => text.toList
  | .dot => ['.']
  | .lparen => ['(']
  | .rparen => [')']
  | .eq => ['=', '=']
  | .neq => ['!', '=']

/-- A text with both kinds of quotes cannot be written. -/
def Token.spellable : Token → Bool
  | .ident name => isIdent name.toList
  | .string text => quoteOf text.toList ∉ text.toList
  | .number text => isNumber text.toList
  | _ => true

/-- What is written between two tokens. -/
def gap : Token → Token → List Char
  | .lparen, _ => []
  | _, .rparen => []
  | .dot, .ident _ => []
  | .ident _, .dot => []
  | _, _ => [' ']

def render : List Token → List Char
  | [] => []
  | [t] => t.spell
  | t :: t' :: ts => t.spell ++ (gap t t' ++ render (t' :: ts))

section Classes

variable {c : Char}

theorem charClass_letter (hc : isIdentStart c = true) : charClass c = .letter := by
  have hne : ∀ d, isIdentStart d = false → c ≠ d := by
    rintro d hd rfl
    simp [hd] at hc
  have hdigit : isDigit c = false := by
    rw [Bool.eq_false_iff]
    intro hdigit
    simp only [isDigit, isIdentStart, Bool.and_eq_true, Bool.or_eq_true, decide_eq_true_eq,
      Char.le_def, UInt32.le_iff_toNat_le] at hdigit hc
    rcases hc with (rfl | hc) | hc
    · simp at hdigit
    · have hlow : ('a').val.toNat ≤ ('9').val.toNat := hc.1.trans hdigit.2
      nomatch hlow
    · have hlow : ('A').val.toNat ≤ ('9').val.toNat := hc.1.trans hdigit.2
      nomatch hlow
  simp [charClass, isBlank, isQuote, hdigit, hc, hne ' ' rfl, hne '\t' rfl, hne '\n' rfl,
    hne '\r' rfl, hne '(' rfl, hne ')' rfl, hne '.' rfl, hne '=' rfl, hne '!' rfl, hne '&' rfl,
    hne '|' rfl, hne '\x22' rfl, hne '\x27' rfl, hne '-' rfl]

theorem charClass_digit (hc : isDigit c = true) : charClass c = .digit := by
  have hne : ∀ d, isDigit d = false → c ≠ d := by
    rintro d hd rfl
    simp [hd] at hc
  simp [charClass, isBlank, isQuote, hc, hne ' ' rfl, hne '\t' rfl, hne '\n' rfl,
    hne '\r' rfl, hne '(' rfl, hne ')' rfl, hne '.' rfl, hne '=' rfl, hne '!' rfl, hne '&' rfl,
    hne '|' rfl, hne '\x22' rfl, hne '\x27' rfl]

theorem charClass_quote (text : List Char) : charClass (quoteOf text) = .quote := by
  rw [quoteOf]
  split <;> rfl

end Classes

/-- What may follow a token without a blank. -/
def Token.endsBefore (t : Token) (rest : List Char) : Prop :=
  ∀ d ∈ rest.head?, isIdentChar d = false ∧ isNumberChar d = false ∨
    (∃ name, t = .ident name) ∧ isIdentChar d = false ∨
    (∀ name, t ≠ .ident name) ∧ ∀ text, t ≠ .number text

/-- A number starts with a digit, or with a sign before one. -/
theorem isNumber_cases {text : List Char} (h : isNumber text = true) :
    ∃ c tail, text = c :: tail ∧ (∀ d ∈ tail, isNumberChar d = true) ∧
      (charClass c = .digit ∨ charClass c = .minus ∧ tail.head?.any isDigit = true) := by
  rw [isNumber.eq_def] at h
  split at h
  · rename_i c cs
    rw [Bool.and_eq_true, all_eq_true] at h
    refine ⟨'-', c :: cs, rfl, ?_, .inr ⟨rfl, h.1⟩⟩
    rw [forall_mem_cons]
    exact ⟨by simp [isNumberChar, h.1], h.2⟩
  · rename_i c cs _
    rw [Bool.and_eq_true, all_eq_true] at h
    exact ⟨c, cs, rfl, h.2, .inl (charClass_digit h.1)⟩
  · cases h

theorem scan_spell {t : Token} (ht : t.spellable = true) {rest : List Char}
    (hrest : t.endsBefore rest) :
    ∃ c cs, t.spell = c :: cs ∧ scan c (cs ++ rest) = .ok (⟨t.spell, some t⟩, rest) := by
  cases t with
  | ident name =>
    rw [Token.spellable] at ht
    cases hname : name.toList with
    | nil => simp [hname, isIdent] at ht
    | cons c cs =>
      rw [hname, isIdent, Bool.and_eq_true, all_eq_true] at ht
      refine ⟨c, cs, hname, ?_⟩
      have hstops : ∀ d ∈ rest.head?, isIdentChar d = false := by
        intro d hd
        rcases hrest d hd with h | h | h
        · exact h.1
        · exact h.2
        · exact absurd rfl (h.1 name)
      have hscan := (Scanned.ident (charClass_letter ht.1) cs rest ⟨rfl, ht.2, hstops⟩).scan_eq
      rw [← hname, String.ofList_toList] at hscan
      exact hscan
  | string text =>
    refine ⟨quoteOf text.toList, text.toList ++ [quoteOf text.toList], rfl, ?_⟩
    have hruns : Runs (· ≠ quoteOf text.toList) ((text.toList ++ [quoteOf text.toList]) ++ rest)
        text.toList (quoteOf text.toList :: rest) := by
      refine ⟨by simp, ?_, by simp⟩
      intro d hd
      simp only [Token.spellable, decide_eq_true_eq] at ht
      rw [decide_eq_true_eq]
      rintro rfl
      exact ht hd
    have hscan := (Scanned.string (charClass_quote text.toList) _ _ hruns).scan_eq
    rw [String.ofList_toList] at hscan
    exact hscan
  | number text =>
    obtain ⟨c, tail, htext, hinside, hclass⟩ := isNumber_cases ht
    refine ⟨c, tail, htext, ?_⟩
    have hstops : ∀ d ∈ rest.head?, isNumberChar d = false := by
      intro d hd
      rcases hrest d hd with h | ⟨⟨name, hname⟩, -⟩ | h
      · exact h.2
      · cases hname
      · exact absurd rfl (h.2 text)
    have hclass' : charClass c = .digit ∨
        charClass c = .minus ∧ (tail ++ rest).head?.any isDigit = true := by
      refine hclass.imp_right fun hminus => ⟨hminus.1, ?_⟩
      cases tail with
      | nil => cases hminus.2
      | cons => exact hminus.2
    have hscan := (Scanned.number hclass' tail rest ⟨rfl, hinside, hstops⟩).scan_eq
    rw [← htext, String.ofList_toList] at hscan
    exact hscan
  | dot => exact ⟨'.', [], rfl, rfl⟩
  | lparen => exact ⟨'(', [], rfl, rfl⟩
  | rparen => exact ⟨')', [], rfl, rfl⟩
  | eq => exact ⟨'=', ['='], rfl, rfl⟩
  | neq => exact ⟨'!', ['='], rfl, rfl⟩

/-- A token is followed by a blank, or by one that it does not run into. -/
theorem endsBefore_gap (t t' : Token) (ts : List Token) :
    t.endsBefore (gap t t' ++ render (t' :: ts)) := by
  have hparen : ∀ {rest : List Char}, t.endsBefore (')' :: rest) := by
    rintro rest d ⟨⟩
    exact .inl (by decide)
  have hblank : ∀ {rest : List Char}, t.endsBefore (' ' :: rest) := by
    rintro rest d ⟨⟩
    exact .inl (by decide)
  have hrparen : ∃ rest, render (.rparen :: ts) = ')' :: rest := by
    cases ts <;> exact ⟨_, rfl⟩
  rw [gap.eq_def]
  split
  · intro d _
    exact .inr (.inr (by simp))
  · obtain ⟨rest, hrest⟩ := hrparen
    rw [hrest]
    exact hparen
  · intro d _
    exact .inr (.inr (by simp))
  · intro d hd
    have hdot : d = '.' := by cases ts <;> exact (Option.some.inj hd).symm
    subst hdot
    exact .inr (.inl ⟨⟨_, rfl⟩, by decide⟩)
  · exact hblank

theorem lexes_render {tokens : List Token} (htokens : ∀ t ∈ tokens, t.spellable = true) :
    ∃ segments, Lexes (render tokens) segments ∧ tokensOf segments = tokens := by
  induction tokens with
  | nil => exact ⟨[], .nil, rfl⟩
  | cons t tokens ih =>
    rw [forall_mem_cons] at htokens
    obtain ⟨segments, hlexes, hsegments⟩ := ih htokens.2
    cases tokens with
    | nil =>
      have hend : t.endsBefore [] := fun d hd => by cases hd
      obtain ⟨c, cs, hspell, hscan⟩ := scan_spell htokens.1 hend
      rw [append_nil] at hscan
      refine ⟨[⟨t.spell, some t⟩], ?_, rfl⟩
      rw [render, hspell]
      exact .cons (hspell ▸ hscan) .nil
    | cons t' ts =>
      obtain ⟨c, cs, hspell, hscan⟩ := scan_spell htokens.1 (endsBefore_gap t t' ts)
      have hgap : ∃ blanks, Lexes (gap t t' ++ render (t' :: ts)) (blanks ++ segments) ∧
          tokensOf blanks = [] := by
        have hcases : gap t t' = [] ∨ gap t t' = [' '] := by
          rw [gap.eq_def]
          split <;> simp
        rcases hcases with hnone | hone
        · exact ⟨[], by rw [hnone]; exact hlexes, rfl⟩
        · exact ⟨[⟨[' '], none⟩], by rw [hone]; exact .cons rfl hlexes, rfl⟩
      obtain ⟨blanks, hblanks, hnone⟩ := hgap
      refine ⟨⟨t.spell, some t⟩ :: (blanks ++ segments), ?_, ?_⟩
      · rw [render, hspell, cons_append]
        exact .cons (hspell ▸ hscan) hblanks
      · rw [tokensOf, filterMap_cons, filterMap_append, ← tokensOf, ← tokensOf, hnone, hsegments]
        rfl

/-! ## Trees as tokens -/

def Level.rank : Level → ℕ
  | .or => 0
  | .and => 1
  | .not => 2
  | .atom => 3

def parenthesized (inParens : Bool) (tokens : List Token) : List Token :=
  if inParens then .lparen :: (tokens ++ [.rparen]) else tokens

/-- The tokens of a tree that stands where the level is expected, in parentheses if its
own level is lower. -/
def Node.tokens : Node → Level → List Token
  | .or l r, level =>
    parenthesized (Level.or.rank < level.rank) (l.tokens .or ++ .ident "or" :: r.tokens .and)
  | .and l r, level =>
    parenthesized (Level.and.rank < level.rank) (l.tokens .and ++ .ident "and" :: r.tokens .not)
  | .not x, level =>
    parenthesized (Level.not.rank < level.rank) (.ident "not" :: x.tokens .not)
  | .cmp n, _ => n.tokens

def print (node : Node) : String := String.ofList (render (node.tokens .or))

def Node.comparisons : Node → List Comparison
  | .or l r => l.comparisons ++ r.comparisons
  | .and l r => l.comparisons ++ r.comparisons
  | .not x => x.comparisons
  | .cmp n => [n]

/-- The accessor is made of identifiers, and the literal can be quoted or is a number. -/
def Comparison.printable (n : Comparison) : Bool :=
  n.hasRoot && n.path.all (fun name => isIdent name.toList) && n.operandToken.spellable

theorem Derives.of_atom {t : List Token} {x : Node} (h : Derives .atom t x) :
    ∀ level, Derives level t x
  | .atom => h
  | .not => .atom h
  | .and => .negation (.atom h)
  | .or => .conjunction (.negation (.atom h))

theorem derives_tokens {node : Node} (hroot : ∀ n ∈ node.comparisons, n.hasRoot = true)
    (level : Level) : Derives level (node.tokens level) node := by
  induction node generalizing level with
  | or l r ihl ihr =>
    simp only [Node.comparisons, forall_mem_append] at hroot
    have h := or (ihl hroot.1 .or) (ihr hroot.2 .and)
    cases level with
    | or => exact h
    | and | not | atom => exact (parens h).of_atom _
  | and l r ihl ihr =>
    simp only [Node.comparisons, forall_mem_append] at hroot
    have h := and (ihl hroot.1 .and) (ihr hroot.2 .not)
    cases level with
    | or => exact .conjunction h
    | and => exact h
    | not | atom => exact (parens (.conjunction h)).of_atom _
  | not x ih =>
    have h := not (ih hroot .not)
    cases level with
    | or => exact .conjunction (.negation h)
    | and => exact .negation h
    | not => exact h
    | atom => exact .parens (.conjunction (.negation h))
  | cmp n => exact (cmp n (hroot n (mem_singleton_self n))).of_atom level

theorem spellable_parenthesized {inParens : Bool} {tokens : List Token}
    (htokens : ∀ t ∈ tokens, t.spellable = true) :
    ∀ t ∈ parenthesized inParens tokens, t.spellable = true := by
  intro t ht
  cases inParens with
  | false => exact htokens t ht
  | true =>
    simp only [parenthesized, if_pos, mem_cons, mem_append, not_mem_nil, or_false] at ht
    rcases ht with rfl | ht | rfl
    · rfl
    · exact htokens t ht
    · rfl

theorem spellable_comparison {n : Comparison} (hn : n.printable = true) :
    ∀ t ∈ n.tokens, t.spellable = true := by
  simp only [Comparison.printable, Bool.and_eq_true, all_eq_true] at hn
  obtain ⟨⟨-, hpath⟩, hoperand⟩ := hn
  have hfields : ∀ t ∈ pathTokens n.path, t.spellable = true := by
    cases hcons : n.path with
    | nil => simp [pathTokens]
    | cons =>
      rw [hcons, forall_mem_cons] at hpath
      rw [pathTokens, forall_mem_cons]
      refine ⟨hpath.1, fun t ht => ?_⟩
      obtain ⟨field, hfield, ht⟩ := mem_flatMap.mp ht
      simp only [mem_cons, not_mem_nil, or_false] at ht
      rcases ht with rfl | rfl
      · rfl
      · exact hpath.2 field hfield
  intro t ht
  simp only [Comparison.tokens, mem_append, mem_cons, not_mem_nil, or_false] at ht
  rcases ht with ht | rfl | rfl
  · exact hfields t ht
  · cases n.op <;> decide
  · exact hoperand

theorem spellable_tokens {node : Node} (hnode : ∀ n ∈ node.comparisons, n.printable = true)
    (level : Level) : ∀ t ∈ node.tokens level, t.spellable = true := by
  induction node generalizing level with
  | or l r ihl ihr | and l r ihl ihr =>
    simp only [Node.comparisons, forall_mem_append] at hnode
    apply spellable_parenthesized
    rw [forall_mem_append, forall_mem_cons]
    exact ⟨ihl hnode.1 _, by decide, ihr hnode.2 _⟩
  | not x ih =>
    apply spellable_parenthesized
    rw [forall_mem_cons]
    exact ⟨by decide, ih hnode _⟩
  | cmp n => exact spellable_comparison (hnode n (mem_singleton_self n))

/-- The parser accepts exactly the sources that tokenize into the grammar, and it reads a
printed tree back. -/
theorem parse_exactly_grammar : (∀ source node, parseExpr source = .ok node ↔
      ∃ tokens, lex source = .ok tokens ∧ Derives .or tokens node) ∧
    ∀ node : Node, (∀ n ∈ node.comparisons, n.printable = true) →
      parseExpr (print node) = .ok node := by
  refine ⟨fun source node => parseExpr_iff_derives, fun node hnode => ?_⟩
  obtain ⟨segments, hlexes, htokens⟩ := lexes_render (spellable_tokens hnode .or)
  have hlex : lex (print node) = .ok (node.tokens .or) :=
    lex_eq_ok.mpr ⟨segments, by rw [print, String.toList_ofList]; exact hlexes, htokens⟩
  refine parseExpr_iff_derives.mpr ⟨_, hlex, derives_tokens ?_ .or⟩
  intro n hn
  have hprintable := hnode n hn
  simp only [Comparison.printable, Bool.and_eq_true] at hprintable
  exact hprintable.1.1

/-- A group on the right keeps its parentheses; one on the left needs none. -/
def grouped : Node :=
  let bug : Node := .cmp { path := ["cell", "type"], op := .eq, operand := "it's a bug" }
  let failed : Node :=
    .cmp { path := ["steps", "ci", "exit_code"], op := .neq, operand := "-1", isNumber := true }
  .or (.or bug failed) (.not (.or failed bug))

theorem grouped_read_back :
    print grouped = "cell.type == \"it's a bug\" or steps.ci.exit_code != -1 or " ++
        "not (steps.ci.exit_code != -1 or cell.type == \"it's a bug\")" ∧
      parseExpr (print grouped) = .ok grouped :=
  ⟨by decide +kernel, parse_exactly_grammar.2 grouped (by decide +kernel)⟩

end Apiary.Expr
