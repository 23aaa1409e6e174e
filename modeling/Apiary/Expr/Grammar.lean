import Apiary.Expr.Parser

/-!
# The grammar of condition expressions

The parser accepts exactly the sentences of a grammar with one level for `or`, `and`,
`not` and atoms.  A tree is printed with the parentheses that its levels ask for, and the
parser reads it back.
-/

namespace Apiary.Expr

open List Comparison

variable {rest tail : List Token} {node right left : Node} {depth : ℕ} {source : String}

/-! ## The grammar -/

inductive Level where
  | or
  | and
  | not
  | atom

def CmpOp.token : CmpOp → Token
  | .eq => .eq
  | .neq => .neq
  | .contains => .ident "contains"
  | .matches => .ident "matches"

def fieldTokens (fields : List String) : List Token :=
  fields.flatMap fun field => [.dot, .ident field]

def pathTokens : List String → List Token
  | [] => []
  | root :: fields => .ident root :: fieldTokens fields

def Comparison.operandToken (n : Comparison) : Token :=
  if n.isNumber then .number n.operand else .string n.operand

def Comparison.tokens (n : Comparison) : List Token :=
  pathTokens n.path ++ [n.op.token, n.operandToken]

/-- An accessor does not start with the word `not`. -/
def Comparison.hasRoot (n : Comparison) : Bool := n.path.head?.any (· ≠ "not")

/-- The tokens spell the tree at the level; `and` and `or` group to the left. -/
inductive Derives : Level → List Token → Node → Prop where
  | cmp (n : Comparison) (hroot : n.hasRoot = true) : Derives .atom n.tokens (.cmp n)
  | parens {t : List Token} {x : Node} (h : Derives .or t x) :
      Derives .atom (.lparen :: (t ++ [.rparen])) x
  | atom {t : List Token} {x : Node} (h : Derives .atom t x) : Derives .not t x
  | not {t : List Token} {x : Node} (h : Derives .not t x) :
      Derives .not (.ident "not" :: t) (.not x)
  | negation {t : List Token} {x : Node} (h : Derives .not t x) : Derives .and t x
  | and {t t' : List Token} {l r : Node} (hl : Derives .and t l) (hr : Derives .not t' r) :
      Derives .and (t ++ .ident "and" :: t') (.and l r)
  | conjunction {t : List Token} {x : Node} (h : Derives .and t x) : Derives .or t x
  | or {t t' : List Token} {l r : Node} (hl : Derives .or t l) (hr : Derives .and t' r) :
      Derives .or (t ++ .ident "or" :: t') (.or l r)

/-! ## Comparisons -/

/-- The parser of paths reads the tokens of a field back and leaves what follows. -/
theorem parsePath_fieldTokens (fields : List String) (hrest : rest.head? ≠ some .dot) :
    parsePath (fieldTokens fields ++ rest) = .ok (fields, rest) := by
  induction fields with
  | nil =>
    match rest with
    | [] => rfl
    | .dot :: _ => exact absurd rfl hrest
    | .ident _ :: _ | .string _ :: _ | .number _ :: _ | .eq :: _ | .neq :: _ | .lparen :: _
      | .rparen :: _ => rfl
  | cons field fields ih =>
    have hcons : fieldTokens (field :: fields) ++ rest =
        .dot :: .ident field :: (fieldTokens fields ++ rest) := rfl
    rw [hcons, parsePath, ih]

/-- Whatever the parser of paths consumes is the tokens of the field it returns. -/
theorem eq_fieldTokens_of_parsePath {tokens : List Token} {fields : List String}
    (hok : parsePath tokens = .ok (fields, rest)) : tokens = fieldTokens fields ++ rest := by
  fun_induction parsePath tokens generalizing fields rest with
  | case1 | case3 => cases hok
  | case2 name tokens fields' rest' hpath ih =>
    cases hok
    rw [ih hpath]
    rfl
  | case4 =>
    cases hok
    rfl

theorem parseOp_token (op : CmpOp) (rest : List Token) :
    parseOp (op.token :: rest) = some (op, rest) := by
  cases op <;> rfl

theorem eq_token_of_parseOp {tokens : List Token} {op : CmpOp}
    (hop : parseOp tokens = some (op, rest)) : tokens = op.token :: rest := by
  rw [parseOp.eq_def] at hop
  split at hop
  · cases hop
    rfl
  · cases hop
    rfl
  · split at hop
    · rename_i hname
      cases hop
      rw [hname, CmpOp.token]
    · obtain ⟨hname, ⟨⟩⟩ := Option.ite_none_right_eq_some.mp hop
      rw [hname, CmpOp.token]
  · cases hop

theorem parseOperand_token (n : Comparison) (rest : List Token) :
    parseOperand n.path n.op (n.operandToken :: rest) = .ok (.cmp n, rest) := by
  rw [operandToken]
  obtain ⟨path, op, operand, isNumber⟩ := n
  cases isNumber <;> rfl

theorem eq_token_of_parseOperand {path : List String} {op : CmpOp} {tokens : List Token}
    (hok : parseOperand path op tokens = .ok (node, rest)) :
    ∃ n : Comparison, node = .cmp n ∧ n.path = path ∧ n.op = op ∧
      tokens = n.operandToken :: rest := by
  rw [parseOperand.eq_def] at hok
  split at hok
  · cases hok
    exact ⟨_, rfl, rfl, rfl, rfl⟩
  · cases hok
    exact ⟨_, rfl, rfl, rfl, rfl⟩
  · cases hok

/-- A comparison is an accessor, an operator and an operand. -/
theorem parseComparison_eq_ok {tokens : List Token} : parseComparison tokens = .ok (node, rest) ↔
      ∃ root tail path afterPath op afterOp, tokens = .ident root :: tail ∧
        parsePath tail = .ok (path, afterPath) ∧ parseOp afterPath = some (op, afterOp) ∧
        parseOperand (root :: path) op afterOp = .ok (node, rest) := by
  constructor
  · intro hok
    rw [parseComparison.eq_def] at hok
    split at hok
    · rename_i root tail
      split at hok
      · cases hok
      · rename_i path afterPath hpath
        split at hok
        · rename_i op afterOp hop
          exact ⟨root, tail, path, afterPath, op, afterOp, rfl, hpath, hop, hok⟩
        · cases hok
    · cases hok
  · rintro ⟨root, tail, path, afterPath, op, afterOp, rfl, hpath, hop, hoperand⟩
    rw [parseComparison, hpath]
    dsimp only
    rw [hop]
    exact hoperand

/-- A comparison written out as tokens is parsed as that comparison. -/
theorem parseComparison_tokens {n : Comparison} (hpath : n.path ≠ []) (rest : List Token) :
    parseComparison (n.tokens ++ rest) = .ok (.cmp n, rest) := by
  obtain ⟨root, fields, hfields⟩ := exists_cons_of_ne_nil hpath
  have hafter : (n.op.token :: n.operandToken :: rest).head? ≠ some .dot := by
    cases n.op <;> simp [CmpOp.token]
  refine parseComparison_eq_ok.mpr ⟨root, _, fields, _, n.op, n.operandToken :: rest, ?_,
    parsePath_fieldTokens fields hafter, parseOp_token _ _, hfields ▸ parseOperand_token n rest⟩
  simp [tokens, hfields, pathTokens]

/-- A parsed comparison consumed exactly its own tokens. -/
theorem eq_tokens_of_parseComparison {tokens : List Token}
    (hok : parseComparison tokens = .ok (node, rest)) :
    ∃ n : Comparison, node = .cmp n ∧ n.path ≠ [] ∧ tokens = n.tokens ++ rest := by
  obtain ⟨root, tail, fields, afterPath, op, afterOp, rfl, hpath, hop, hoperand⟩ :=
    parseComparison_eq_ok.mp hok
  obtain ⟨n, rfl, hn, rfl, rfl⟩ := eq_token_of_parseOperand hoperand
  refine ⟨n, rfl, by simp [hn], ?_⟩
  rw [eq_fieldTokens_of_parsePath hpath, eq_token_of_parseOp hop]
  simp [tokens, hn, pathTokens]

/-! ## The levels of the descent -/

section Levels

variable {p : Parser}

theorem parseAtom_cases {tokens : List Token} (hok : parseAtom p tokens = .ok (node, rest)) :
    (∃ inner, tokens = .lparen :: inner ∧ p inner = .ok (node, .rparen :: rest)) ∨
      parseComparison tokens = .ok (node, rest) := by
  rw [parseAtom.eq_def] at hok
  split at hok
  · rename_i inner
    split at hok
    · cases hok
    · rename_i hinner
      cases hok
      exact .inl ⟨inner, rfl, hinner⟩
    · cases hok
  · exact .inr hok

theorem parseAtom_lparen {inner : List Token} (hinner : p inner = .ok (node, .rparen :: rest)) :
    parseAtom p (.lparen :: inner) = .ok (node, rest) := by
  rw [parseAtom, hinner]

theorem parseAtom_comparison {tokens : List Token}
    (hok : parseComparison tokens = .ok (node, rest)) : parseAtom p tokens = .ok (node, rest) := by
  obtain ⟨root, tail, _, _, _, _, rfl, _⟩ := parseComparison_eq_ok.mp hok
  exact hok

/-- A negation is any number of `not` before an atom. -/
theorem parseNot_cases {tokens : List Token} (hok : parseNot p tokens = .ok (node, rest)) :
    (∃ tail inner, tokens = .ident "not" :: tail ∧ parseNot p tail = .ok (inner, rest) ∧
        node = .not inner) ∨
      tokens.head? ≠ some (.ident "not") ∧ p tokens = .ok (node, rest) := by
  rw [parseNot.eq_def] at hok
  split at hok
  · rename_i tail
    split_ifs at hok with hname
    · split at hok
      · cases hok
      · rename_i inner rest' hinner
        cases hok
        exact .inl ⟨tail, inner, by rw [hname], hinner, rfl⟩
    · refine .inr ⟨?_, hok⟩
      simpa using hname
  · rename_i hnot
    refine .inr ⟨?_, hok⟩
    intro hhead
    obtain ⟨tail, rfl⟩ := head?_eq_some_iff.mp hhead
    exact hnot "not" tail rfl

theorem parseNot_not {inner : Node} (hinner : parseNot p tail = .ok (inner, rest)) :
    parseNot p (.ident "not" :: tail) = .ok (.not inner, rest) := by
  rw [parseNot, if_pos rfl, hinner]

theorem parseNot_atom {tokens : List Token} (hhead : tokens.head? ≠ some (.ident "not")) :
    parseNot p tokens = p tokens := by
  rw [parseNot.eq_def]
  split
  · exact if_neg fun hname => hhead (by rw [hname]; rfl)
  · rfl

variable {keyword : String} {join : Node → Node → Node}

theorem parseMore_stop {tokens : List Token} (hhead : tokens.head? ≠ some (.ident keyword))
    (fuel : ℕ) (left : Node) : parseMore keyword join p fuel left tokens = .ok (left, tokens) := by
  cases fuel with
  | zero => rw [parseMore]; simp
  | succ =>
    cases tokens with
    | nil => rfl
    | cons token =>
      cases token with
      | ident =>
        rw [parseMore, if_neg]
        rintro rfl
        exact hhead rfl
      | _ => rfl

/-- One turn of the loop: the keyword, an operand, and the loop again with the folded left side. -/
theorem parseMore_turn (hoperand : p tail = .ok (right, rest)) (fuel : ℕ) (left : Node) :
    parseMore keyword join p (fuel + 1) left (.ident keyword :: tail) =
      parseMore keyword join p fuel (join left right) rest := by
  rw [parseMore, if_pos rfl, hoperand]

theorem parseChain_cases {tokens : List Token}
    (hok : parseChain keyword join p tokens = .ok (node, rest)) :
    ∃ left tail, p tokens = .ok (left, tail) ∧
      parseMore keyword join p tail.length left tail = .ok (node, rest) := by
  rw [parseChain] at hok
  split at hok
  · cases hok
  · rename_i left tail hleft
    exact ⟨left, tail, hleft, hok⟩

theorem parseChain_of {tokens : List Token} (hleft : p tokens = .ok (left, tail)) :
    parseChain keyword join p tokens = parseMore keyword join p tail.length left tail := by
  rw [parseChain, hleft]

end Levels

/-! ## What the parser accepts is in the grammar -/

/-- The parser reads a sentence of the level off the front of the tokens. -/
def Sound (level : Level) (p : Parser) : Prop :=
  ∀ ⦃tokens rest : List Token⦄ ⦃node : Node⦄, p tokens = .ok (node, rest) →
    ∃ t, tokens = t ++ rest ∧ Derives level t node

/-- What `parseNot` returns is derived from what it consumed, given the same of the level above. -/
theorem parseNot_sound {inner : Parser} (hinner : Sound .or inner) :
    Sound .not (parseNot (parseAtom inner)) := by
  intro tokens rest node hok
  induction tokens generalizing node with
  | nil =>
    rw [parseNot_atom (by simp)] at hok
    cases hok
  | cons token tokens ih =>
    rcases parseNot_cases hok with ⟨tail, x, htokens, hx, rfl⟩ | ⟨hhead, hatom⟩
    · obtain ⟨rfl, rfl⟩ := List.cons.inj htokens
      obtain ⟨t, rfl, ht⟩ := ih hx
      exact ⟨.ident "not" :: t, rfl, .not ht⟩
    · rcases parseAtom_cases hatom with ⟨tail, htokens, hx⟩ | hcmp
      · obtain ⟨t, rfl, ht⟩ := hinner hx
        exact ⟨.lparen :: (t ++ [.rparen]), by simp [htokens], .atom (.parens ht)⟩
      · obtain ⟨n, rfl, hpath, htokens⟩ := eq_tokens_of_parseComparison hcmp
        refine ⟨n.tokens, htokens, .atom (.cmp n ?_)⟩
        obtain ⟨root, fields, hfields⟩ := exists_cons_of_ne_nil hpath
        rw [htokens] at hhead
        simpa [Comparison.hasRoot, Comparison.tokens, pathTokens, hfields] using hhead

section Chain

variable {low high : Level} {p : Parser} {keyword : String} {join : Node → Node → Node}
variable (hp : Sound high p) (hone : ∀ {t x}, Derives high t x → Derives low t x)
variable (hjoin : ∀ {t t' l r}, Derives low t l → Derives high t' r →
  Derives low (t ++ .ident keyword :: t') (join l r))

include hp hjoin in
/-- The loop extends a derived left side by the operands it consumes. -/
theorem parseMore_sound {fuel : ℕ} {t tokens : List Token} (hleft : Derives low t left)
    (hok : parseMore keyword join p fuel left tokens = .ok (node, rest)) :
    ∃ t', tokens = t' ++ rest ∧ Derives low (t ++ t') node := by
  fun_induction parseMore keyword join p fuel left tokens generalizing t with
  | case1 => cases hok
  | case2 fuel left tail right rest' hoperand ih =>
    obtain ⟨t', rfl, hright⟩ := hp hoperand
    obtain ⟨t'', rfl, hnode⟩ := ih (hjoin hleft hright) hok
    exact ⟨.ident keyword :: (t' ++ t''), by simp, by simpa using hnode⟩
  | case3 | case4 =>
    cases hok
    exact ⟨[], rfl, by simpa using hleft⟩

include hp hone hjoin in
/-- A chain of operands joined by one keyword is derived from what it consumed. -/
theorem parseChain_sound : Sound low (parseChain keyword join p) := by
  intro tokens rest node hok
  obtain ⟨left, tail, hleft, hmore⟩ := parseChain_cases hok
  obtain ⟨t, rfl, ht⟩ := hp hleft
  obtain ⟨t', rfl, hnode⟩ := parseMore_sound hp hjoin (hone ht) hmore
  exact ⟨t ++ t', by simp, hnode⟩

end Chain

/-- Soundness of the parser: the tree is derived from the tokens consumed. Induction on the fuel. -/
theorem parseOr_sound (depth : ℕ) : Sound .or (parseOr depth) := by
  induction depth with
  | zero => intro tokens rest node hok; cases hok
  | succ depth ih =>
    have hand := parseChain_sound (parseNot_sound ih) .negation .and
    exact parseChain_sound hand .conjunction .or

/-! ## What is in the grammar is accepted -/

/-- How the parser of a level reads a sentence.  At the levels of `and` and `or` it comes
to the loop over what follows. -/
def Reads (depth : ℕ) (t : List Token) (x : Node) (rest : List Token) : Level → Prop
  | .atom => parseAtom (parseOr depth) (t ++ rest) = .ok (x, rest) ∧
      t.head? ≠ some (.ident "not") ∧ t ≠ []
  | .not => parseNot (parseAtom (parseOr depth)) (t ++ rest) = .ok (x, rest)
  | .and => ∃ fuel, rest.length ≤ fuel ∧ parseAnd (parseAtom (parseOr depth)) (t ++ rest) =
      parseMore "and" .and (parseNot (parseAtom (parseOr depth))) fuel x rest
  | .or => rest.head? ≠ some (.ident "and") → ∃ fuel, rest.length ≤ fuel ∧
      parseOr (depth + 1) (t ++ rest) =
        parseMore "or" .or (parseAnd (parseAtom (parseOr depth))) fuel x rest

theorem Reads.and_ok {t : List Token} {x : Node} (h : Reads depth t x rest .and)
    (hrest : rest.head? ≠ some (.ident "and")) :
    parseAnd (parseAtom (parseOr depth)) (t ++ rest) = .ok (x, rest) := by
  obtain ⟨fuel, -, heq⟩ := h
  rw [heq, parseMore_stop hrest]

theorem Reads.or_ok {t : List Token} {x : Node} (h : Reads depth t x rest .or)
    (hand : rest.head? ≠ some (.ident "and")) (hor : rest.head? ≠ some (.ident "or")) :
    parseOr (depth + 1) (t ++ rest) = .ok (x, rest) := by
  obtain ⟨fuel, -, heq⟩ := h hand
  rw [heq, parseMore_stop hor]

/-- One turn of a loop that has fuel for what follows. -/
theorem parseMore_next {p : Parser} {keyword : String} {join : Node → Node → Node} {fuel : ℕ}
    {t : List Token} (hoperand : p (t ++ rest) = .ok (right, rest))
    (hfuel : (.ident keyword :: (t ++ rest) : List Token).length ≤ fuel) :
    ∃ fuel', rest.length ≤ fuel' ∧ parseMore keyword join p fuel left
      (.ident keyword :: (t ++ rest)) = parseMore keyword join p fuel' (join left right) rest := by
  obtain ⟨fuel', rfl⟩ : ∃ fuel', fuel = fuel' + 1 :=
    Nat.exists_eq_succ_of_ne_zero (by rintro rfl; simp at hfuel)
  refine ⟨fuel', ?_, parseMore_turn hoperand fuel' left⟩
  simp only [length_cons, length_append] at hfuel
  omega

/-- Parentheses nest no deeper than there are tokens. -/
theorem Derives.reads {level : Level} {t : List Token} {x : Node} (h : Derives level t x)
    (hdepth : t.length ≤ depth) (rest : List Token) : Reads depth t x rest level := by
  induction h generalizing depth rest with
  | cmp n hroot =>
    obtain ⟨root, fields, hfields⟩ : ∃ root fields, n.path = root :: fields := by
      apply exists_cons_of_ne_nil
      intro hnil
      simp [hasRoot, hnil] at hroot
    have hne : n.path ≠ [] := by simp [hfields]
    refine ⟨parseAtom_comparison (parseComparison_tokens hne rest), ?_, ?_⟩
    · simpa [tokens, hfields, pathTokens, hasRoot] using hroot
    · simp [tokens]
  | parens h ih =>
    rename_i t x
    obtain ⟨depth, rfl⟩ : ∃ d, depth = d + 1 :=
      Nat.exists_eq_succ_of_ne_zero (by rintro rfl; simp at hdepth)
    have hlength : t.length ≤ depth := by
      simp only [length_cons, length_append, length_nil] at hdepth
      omega
    have hinner := (ih hlength (.rparen :: rest)).or_ok (by simp) (by simp)
    refine ⟨?_, by simp, by simp⟩
    have happend : (.lparen :: (t ++ [.rparen])) ++ rest = .lparen :: (t ++ .rparen :: rest) := by
      simp
    rw [happend]
    exact parseAtom_lparen hinner
  | atom h ih =>
    obtain ⟨hatom, hhead, hne⟩ := ih hdepth rest
    obtain ⟨first, tail, rfl⟩ := exists_cons_of_ne_nil hne
    exact (parseNot_atom (by simpa using hhead)).trans hatom
  | not h ih => exact parseNot_not (ih (Nat.le_of_succ_le hdepth) rest)
  | negation h ih => exact ⟨rest.length, le_rfl, parseChain_of (ih hdepth rest)⟩
  | and hl hr ihl ihr =>
    rename_i t t' l r
    rw [length_append, length_cons] at hdepth
    have ht : t.length ≤ depth := by omega
    have ht' : t'.length ≤ depth := by omega
    obtain ⟨fuel, hfuel, heq⟩ := ihl ht (.ident "and" :: (t' ++ rest))
    obtain ⟨fuel', hfuel', hturn⟩ := parseMore_next (ihr ht' rest) hfuel
    refine ⟨fuel', hfuel', ?_⟩
    rw [append_assoc, cons_append, heq, hturn]
  | conjunction h ih =>
    intro hrest
    exact ⟨rest.length, le_rfl, parseChain_of ((ih hdepth rest).and_ok hrest)⟩
  | or hl hr ihl ihr =>
    intro hrest
    rename_i t t' l r
    rw [length_append, length_cons] at hdepth
    have ht : t.length ≤ depth := by omega
    have ht' : t'.length ≤ depth := by omega
    obtain ⟨fuel, hfuel, heq⟩ := ihl ht (.ident "or" :: (t' ++ rest)) (by simp)
    have hright := (ihr ht' rest).and_ok hrest
    obtain ⟨fuel', hfuel', hturn⟩ := parseMore_next hright hfuel
    refine ⟨fuel', hfuel', ?_⟩
    rw [append_assoc, cons_append, heq, hturn]

/-- With enough fuel the parser accepts exactly the derivations of the grammar. -/
theorem parseOr_eq_ok_iff {tokens : List Token} :
    parseOr (tokens.length + 1) tokens = .ok (node, []) ↔ Derives .or tokens node := by
  constructor
  · intro hok
    obtain ⟨t, rfl, ht⟩ := parseOr_sound _ hok
    simpa using ht
  · intro h
    have hreads := (h.reads le_rfl []).or_ok (by simp) (by simp)
    simpa using hreads

theorem parseExpr_eq_ok : parseExpr source = .ok node ↔
      ∃ tokens, lex source = .ok tokens ∧ parseOr (tokens.length + 1) tokens = .ok (node, []) := by
  rw [parseExpr]
  constructor
  · intro hok
    split at hok
    · cases hok
    · rename_i tokens hlex
      split at hok
      · cases hok
      · rename_i hparse
        cases hok
        exact ⟨tokens, hlex, hparse⟩
      · cases hok
  · rintro ⟨tokens, hlex, hparse⟩
    rw [hlex]
    dsimp only
    rw [hparse]

/-- `parseExpr` accepts a list of tokens exactly when the grammar derives a tree from all of it. -/
theorem parseExpr_iff_derives : parseExpr source = .ok node ↔
      ∃ tokens, lex source = .ok tokens ∧ Derives .or tokens node := by
  rw [parseExpr_eq_ok]
  simp only [parseOr_eq_ok_iff]

end Apiary.Expr
