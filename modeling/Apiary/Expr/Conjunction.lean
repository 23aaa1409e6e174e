import Apiary.Expr.Eval
import Apiary.Expr.Grammar

/-!
# Expressions in parentheses

Guards are joined as text, by writing each of two expressions in parentheses with
`and` between them.  The parser reads such a text as the conjunction of what it reads
the two expressions as.
-/

namespace Apiary.Expr

/-- The text of two expressions in parentheses with `and` between them. -/
def conjunction (a b : String) : String := "(" ++ a ++ ") and (" ++ b ++ ")"

theorem conjunction_toList (a b : String) : (conjunction a b).toList = '(' :: (a.toList ++
      ')' :: ' ' :: 'a' :: 'n' :: 'd' :: ' ' :: '(' :: (b.toList ++ [')'])) := by
  simp [conjunction]

theorem lex_conjunction {a b : String} {tokens tokens' : List Token} (ha : lex a = .ok tokens)
    (hb : lex b = .ok tokens') :
    lex (conjunction a b) = .ok
      (.lparen :: (tokens ++ .rparen :: .ident "and" :: .lparen :: (tokens' ++ [.rparen]))) := by
  obtain ⟨segments, hsegments, rfl⟩ := lex_eq_ok.mp ha
  obtain ⟨segments', hsegments', rfl⟩ := lex_eq_ok.mp hb
  have hclose : Lexes [')'] [⟨[')'], some .rparen⟩] := .cons rfl .nil
  have hright := hsegments'.append (by rintro _ ⟨⟩; rfl) hclose
  have hmiddle : Lexes (')' :: ' ' :: 'a' :: 'n' :: 'd' :: ' ' :: '(' :: (b.toList ++ [')']))
      (⟨[')'], some .rparen⟩ :: ⟨[' '], none⟩ :: ⟨['a', 'n', 'd'], some (.ident "and")⟩ ::
        ⟨[' '], none⟩ :: ⟨['('], some .lparen⟩ :: (segments' ++ [⟨[')'], some .rparen⟩])) :=
    .cons rfl (.cons rfl (.cons rfl (.cons rfl (.cons rfl hright))))
  have hopen : ∀ cs, scan '(' cs = .ok (⟨['('], some .lparen⟩, cs) := fun _ => rfl
  have hall := Lexes.cons (hopen _) (hsegments.append (by simp; decide) hmiddle)
  rw [← conjunction_toList] at hall
  exact lex_eq_ok.mpr ⟨_, hall, by simp [tokensOf]⟩

theorem derives_conjunction {t t' : List Token} {l r : Node} (hl : Derives .or t l)
    (hr : Derives .or t' r) :
    Derives .or (.lparen :: (t ++ .rparen :: .ident "and" :: .lparen :: (t' ++ [.rparen])))
      (.and l r) := by
  have hand := Derives.and (.negation (.atom (.parens hl))) (.atom (.parens hr))
  simpa using Derives.conjunction hand

/-- The conjunction of two texts is read as the conjunction of what they are read as. -/
theorem parseExpr_conjunction {a b : String} {node node' : Node} (ha : parseExpr a = .ok node)
    (hb : parseExpr b = .ok node') : parseExpr (conjunction a b) = .ok (.and node node') := by
  obtain ⟨tokens, hlex, hderives⟩ := parseExpr_iff_derives.mp ha
  obtain ⟨tokens', hlex', hderives'⟩ := parseExpr_iff_derives.mp hb
  exact parseExpr_iff_derives.mpr
    ⟨_, lex_conjunction hlex hlex', derives_conjunction hderives hderives'⟩

theorem eval_and_eq_true (ops : Ops) (ctx : Workflow.EvalContext) (l r : Node) :
    eval ops ctx (.and l r) = .ok true ↔ eval ops ctx l = .ok true ∧ eval ops ctx r = .ok true := by
  rw [eval]
  split <;> simp_all

end Apiary.Expr
