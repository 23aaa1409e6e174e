import Apiary.Expr.Lexer

/-!
# The parser of condition expressions

Recursive descent over the token list, one function for each level of
precedence.  The levels take the parser of the level below as a parameter, so
that a parenthesis is the only place where the descent starts again.
-/

namespace Apiary.Expr

inductive CmpOp where
  | eq
  | neq
  | contains
  | matches
  deriving DecidableEq, Repr

def CmpOp.text : CmpOp → String
  | .eq => "=="
  | .neq => "!="
  | .contains => "contains"
  | .matches => "matches"

structure Comparison where
  path : List String
  op : CmpOp
  operand : String
  isNumber : Bool := false
  deriving DecidableEq, Repr

inductive Node where
  | or (l r : Node)
  | and (l r : Node)
  | not (x : Node)
  | cmp (comparison : Comparison)
  deriving DecidableEq, Repr

/-- A parser reads a node off the front of the tokens. -/
abbrev Parser := List Token → Except String (Node × List Token)

/-- The text of the next token; the end of the input has none. -/
def peekVal (tokens : List Token) : String := (tokens.head?.map Token.val).getD ""

/-- The `"." IDENT` tail of an accessor. -/
def parsePath : List Token → Except String (List String × List Token)
  | .dot :: .ident name :: rest =>
    match parsePath rest with
    | .error err => .error err
    | .ok (path, rest) => .ok (name :: path, rest)
  | .dot :: _ => .error "expected identifier after '.'"
  | tokens => .ok ([], tokens)

def parseOp : List Token → Option (CmpOp × List Token)
  | .eq :: rest => some (.eq, rest)
  | .neq :: rest => some (.neq, rest)
  | .ident name :: rest =>
    if name = "contains" then some (.contains, rest)
    else if name = "matches" then some (.matches, rest)
    else none
  | _ => none

def parseOperand (path : List String) (op : CmpOp) : List Token → Except String (Node × List Token)
  | .string text :: rest => .ok (.cmp { path := path, op := op, operand := text }, rest)
  | .number text :: rest =>
    .ok (.cmp { path := path, op := op, operand := text, isNumber := true }, rest)
  | tokens => .error ("expected string or number operand, got " ++ quote (peekVal tokens))

def parseComparison : Parser
  | .ident root :: rest =>
    match parsePath rest with
    | .error err => .error err
    | .ok (path, rest) =>
      match parseOp rest with
      | some (op, rest) => parseOperand (root :: path) op rest
      | none => .error ("expected operator (==, !=, contains, matches) after accessor " ++
          quote (".".intercalate (root :: path)) ++ ", got " ++ quote (peekVal rest))
  | tokens => .error ("expected accessor, got " ++ quote (peekVal tokens))

def parseAtom (inner : Parser) : Parser
  | .lparen :: rest =>
    match inner rest with
    | .error err => .error err
    | .ok (node, .rparen :: rest) => .ok (node, rest)
    | .ok _ => .error "expected ')' in expression"
  | tokens => parseComparison tokens

def parseNot (atom : Parser) : Parser
  | .ident name :: rest =>
    if name = "not" then
      match parseNot atom rest with
      | .error err => .error err
      | .ok (node, rest) => .ok (.not node, rest)
    else atom (.ident name :: rest)
  | tokens => atom tokens

/-- The loop over `keyword operand`, grouped to the left.  Every turn consumes a
token, so `fuel` is the number of tokens left. -/
def parseMore (keyword : String) (join : Node → Node → Node) (operand : Parser) : ℕ → Node → Parser
  | fuel + 1, left, .ident name :: rest =>
    if name = keyword then
      match operand rest with
      | .error err => .error err
      | .ok (right, rest) => parseMore keyword join operand fuel (join left right) rest
    else .ok (left, .ident name :: rest)
  | _, left, tokens => .ok (left, tokens)

def parseChain (keyword : String) (join : Node → Node → Node) (operand : Parser) : Parser :=
  fun tokens =>
    match operand tokens with
    | .error err => .error err
    | .ok (left, rest) => parseMore keyword join operand rest.length left rest

def parseAnd (atom : Parser) : Parser := parseChain "and" .and (parseNot atom)

/-- `depth` bounds the nesting of parentheses. -/
def parseOr : ℕ → Parser
  | 0 => fun _ => .error "expected accessor"
  | depth + 1 => parseChain "or" .or (parseAnd (parseAtom (parseOr depth)))

def parseExpr (source : String) : Except String Node :=
  match lex source with
  | .error err => .error err
  | .ok tokens =>
    match parseOr (tokens.length + 1) tokens with
    | .error err => .error err
    | .ok (node, []) => .ok node
    | .ok (_, token :: _) =>
      .error ("unexpected token " ++ quote token.val ++ " in expression " ++ quote source)

end Apiary.Expr
