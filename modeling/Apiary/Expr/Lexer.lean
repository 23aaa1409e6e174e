import Apiary.Core.Trim

/-!
# The lexer of condition expressions

`lex` cuts the source into tokens.  The model keeps the spelling of every token,
and the blanks between them, so that a transformation of the source text can be
compared with the way the runtime reads it.
-/

namespace Apiary.Expr

open List

variable {more : Char → Bool} {cs tail rest source : List Char} {c : Char} {segment : Segment}

/-- The end of the input is the end of the token list. -/
inductive Token where
  | ident (name : String)
  | string (text : String)
  | number (text : String)
  | dot
  | lparen
  | rparen
  | eq
  | neq
  deriving DecidableEq, Repr

def Token.val : Token → String
  | .ident name => name
  | .string text => text
  | .number text => text
  | .dot => "."
  | .lparen => "("
  | .rparen => ")"
  | .eq => "=="
  | .neq => "!="

/-- A stretch of the source: the spelling of a token, or a blank. -/
structure Segment where
  text : List Char
  token : Option Token
  deriving DecidableEq

def isBlank (c : Char) : Bool := c = ' ' || c = '\t' || c = '\n' || c = '\r'

def isQuote (c : Char) : Bool := c = '\x22' || c = '\x27'

def isDigit (c : Char) : Bool := '0' ≤ c && c ≤ '9'

def isIdentStart (c : Char) : Bool := c = '_' || ('a' ≤ c && c ≤ 'z') || ('A' ≤ c && c ≤ 'Z')

def isIdentChar (c : Char) : Bool := isIdentStart c || isDigit c

/-- What continues a number once it has started. -/
def isNumberChar (c : Char) : Bool := isDigit c || c = '.'

/-- The first byte of a character's encoding, read as a character: the lexer
goes through the source byte by byte. -/
def leadByte (c : Char) : Char :=
  if c.toNat < 0x80 then c
  else if c.toNat < 0x800 then Char.ofNat (0xC0 + c.toNat / 0x40)
  else if c.toNat < 0x10000 then Char.ofNat (0xE0 + c.toNat / 0x1000)
  else Char.ofNat (0xF0 + c.toNat / 0x40000)

/-- What the first character of a stretch says about it.  An error text is
completed with the position of the character. -/
inductive CharClass where
  | blank
  | mark (token : Token)
  | operator (token : Token) (alone : ℕ → String)
  | quote
  | digit
  | minus
  | letter
  | unsupported (message : ℕ → String)

/-- The cases of the lexer's switch, in its order. -/
def charClass (c : Char) : CharClass :=
  if isBlank c then .blank
  else if c = '(' then .mark .lparen
  else if c = ')' then .mark .rparen
  else if c = '.' then .mark .dot
  else if c = '=' then
    .operator .eq fun pos => "unexpected '=' (did you mean '=='?) at position " ++ toString pos
  else if c = '!' then
    .operator .neq fun pos =>
      "unsupported operator '!' at position " ++ toString pos ++
        " — use 'not' (or '!=' for inequality)"
  else if c = '&' then
    .unsupported fun pos => "unsupported operator '&&' at position " ++ toString pos ++
      " — use 'and' (C-style operators are not supported)"
  else if c = '|' then
    .unsupported fun pos => "unsupported operator '||' at position " ++ toString pos ++
      " — use 'or' (C-style operators are not supported)"
  else if isQuote c then .quote
  else if isDigit c then .digit
  else if c = '-' then .minus
  else if isIdentStart c then .letter
  else
    .unsupported fun pos => "unexpected character " ++ quote (String.ofList [leadByte c]) ++
      " at position " ++ toString pos

/-- What the class of a character says of it. -/
def CharClass.Fits (c : Char) : CharClass → Prop
  | .blank => isBlank c = true
  | .mark token => token = .lparen ∧ c = '(' ∨ token = .rparen ∧ c = ')' ∨ token = .dot ∧ c = '.'
  | .operator token _ => token = .eq ∧ c = '=' ∨ token = .neq ∧ c = '!'
  | .quote => isQuote c = true
  | .digit => isDigit c = true
  | .minus => c = '-'
  | .letter => isIdentStart c = true
  | .unsupported _ => True

theorem charClass_fits (c : Char) : (charClass c).Fits c := by
  rw [charClass]
  repeat' refine iteInduction (fun h => ?_) fun _ => ?_
  · exact h
  · exact .inl ⟨rfl, h⟩
  · exact .inr (.inl ⟨rfl, h⟩)
  · exact .inr (.inr ⟨rfl, h⟩)
  · exact .inl ⟨rfl, h⟩
  · exact .inr ⟨rfl, h⟩
  · trivial
  · trivial
  · exact h
  · exact h
  · exact h
  · exact h
  · trivial

/-- A token spelled by `c` and the characters after it that satisfy `more`. -/
def scanRun (more : Char → Bool) (token : String → Token) (c : Char) (cs : List Char) :
    Segment × List Char :=
  let text := c :: cs.takeWhile more
  (⟨text, some (token (String.ofList text))⟩, cs.dropWhile more)

/-- One turn of the lexer's loop: the stretch that starts with `c` and what is
left. -/
def scan (c : Char) (cs : List Char) : Except (ℕ → String) (Segment × List Char) :=
  match charClass c with
  | .blank => .ok (⟨[c], none⟩, cs)
  | .mark token => .ok (⟨[c], some token⟩, cs)
  | .operator token alone =>
    if cs.head? = some '=' then .ok (⟨[c, '='], some token⟩, cs.tail) else .error alone
  | .quote =>
    if c ∈ cs then
      let body := cs.takeWhile (· ≠ c)
      .ok (⟨c :: body ++ [c], some (.string (String.ofList body))⟩, (cs.dropWhile (· ≠ c)).tail)
    else .error fun _ => "unterminated string literal in expression"
  | .digit => .ok (scanRun isNumberChar .number c cs)
  | .minus =>
    if cs.head?.any isDigit then .ok (scanRun isNumberChar .number c cs)
    else .error fun pos => "unexpected '-' at position " ++ toString pos ++
      " — identifiers cannot contain '-' " ++
      "(hyphenated step ids cannot be referenced in expressions)"
  | .letter => .ok (scanRun isIdentChar .ident c cs)
  | .unsupported message => .error message

/-- Every turn consumes a character, so `fuel` bounds the turns by the length of
the source. -/
def segmentsFrom : ℕ → ℕ → List Char → Except String (List Segment)
  | _, _, [] => .ok []
  | 0, _, _ :: _ => .ok []
  | fuel + 1, pos, c :: cs =>
    match scan c cs with
    | .error message => .error (message pos)
    | .ok (segment, rest) =>
      match segmentsFrom fuel (pos + byteLength segment.text) rest with
      | .error err => .error err
      | .ok segments => .ok (segment :: segments)

def segments (source : String) : Except String (List Segment) :=
  segmentsFrom source.toList.length 0 source.toList

def tokensOf (segments : List Segment) : List Token := segments.filterMap Segment.token

def lex (source : String) : Except String (List Token) :=
  match segments source with
  | .error err => .error err
  | .ok segments => .ok (tokensOf segments)

/-! ## One turn -/

/-- The leading characters that satisfy `more`, and what follows them. -/
structure Runs (more : Char → Bool) (cs tail rest : List Char) : Prop where
  text : cs = tail ++ rest
  inside : ∀ d ∈ tail, more d = true
  stops : ∀ d ∈ rest.head?, more d = false

theorem runs_takeWhile (more : Char → Bool) (cs : List Char) :
    Runs more cs (cs.takeWhile more) (cs.dropWhile more) where
  text := takeWhile_append_dropWhile.symm
  inside _ hd := mem_takeWhile_imp hd
  stops _ hd := head_dropWhile hd

theorem Runs.takeWhile_eq (hruns : Runs more cs tail rest) :
    cs.takeWhile more = tail ∧ cs.dropWhile more = rest := by
  obtain ⟨rfl, hinside, hstops⟩ := hruns
  exact span_append hinside hstops

/-- What one successful turn can read. -/
inductive Scanned (c : Char) (cs : List Char) : Segment → List Char → Prop where
  | blank (hclass : charClass c = .blank) : Scanned c cs ⟨[c], none⟩ cs
  | mark (token : Token) (hclass : charClass c = .mark token) : Scanned c cs ⟨[c], some token⟩ cs
  | operator (token : Token) (alone : ℕ → String) (hclass : charClass c = .operator token alone)
      (rest : List Char) (hcs : cs = '=' :: rest) : Scanned c cs ⟨[c, '='], some token⟩ rest
  | string (hclass : charClass c = .quote) (body rest : List Char)
      (hruns : Runs (· ≠ c) cs body (c :: rest)) :
      Scanned c cs ⟨c :: body ++ [c], some (.string (String.ofList body))⟩ rest
  | number (hclass : charClass c = .digit ∨ charClass c = .minus ∧ cs.head?.any isDigit = true)
      (tail rest : List Char) (hruns : Runs isNumberChar cs tail rest) :
      Scanned c cs ⟨c :: tail, some (.number (String.ofList (c :: tail)))⟩ rest
  | ident (hclass : charClass c = .letter) (tail rest : List Char)
      (hruns : Runs isIdentChar cs tail rest) :
      Scanned c cs ⟨c :: tail, some (.ident (String.ofList (c :: tail)))⟩ rest

theorem dropWhile_ne_of_mem (hmem : c ∈ cs) :
    cs.dropWhile (· ≠ c) = c :: (cs.dropWhile (· ≠ c)).tail := by
  induction cs with
  | nil => exact absurd hmem not_mem_nil
  | cons d cs ih =>
    by_cases hd : d = c
    · simp [hd]
    · have hmem : c ∈ cs := (mem_cons.mp hmem).resolve_left (Ne.symm hd)
      rw [dropWhile_cons_of_pos (by simpa using hd)]
      exact ih hmem

section

variable (hscan : scan c cs = .ok (segment, rest))

include hscan

/-- What one call of the scanner takes from the source, by the class of the first character. -/
theorem scan_cases : Scanned c cs segment rest := by
  rw [scan] at hscan
  split at hscan
  · cases hscan
    exact .blank ‹_›
  · cases hscan
    exact .mark _ ‹_›
  · split_ifs at hscan with hhead
    cases hscan
    obtain ⟨tail, rfl⟩ := head?_eq_some_iff.mp hhead
    exact .operator _ _ ‹_› _ rfl
  · split_ifs at hscan with hmem
    cases hscan
    have hruns := runs_takeWhile (· ≠ c) cs
    rw [dropWhile_ne_of_mem hmem] at hruns
    exact .string ‹_› _ _ hruns
  · cases hscan
    exact .number (.inl ‹_›) _ _ (runs_takeWhile isNumberChar cs)
  · split_ifs at hscan
    cases hscan
    exact .number (.inr ⟨‹_›, ‹_›⟩) _ _ (runs_takeWhile isNumberChar cs)
  · cases hscan
    exact .ident ‹_› _ _ (runs_takeWhile isIdentChar cs)
  · cases hscan

omit hscan in
/-- The rules of a scanned segment determine the call of the scanner. -/
theorem Scanned.scan_eq (hscanned : Scanned c cs segment rest) :
    scan c cs = .ok (segment, rest) := by
  rw [scan]
  cases hscanned with
  | blank hclass | mark token hclass => rw [hclass]
  | operator token alone hclass rest hcs =>
    rw [hclass, hcs]
    rfl
  | string hclass body rest hruns =>
    have hmem : c ∈ cs := by
      rw [hruns.text]
      simp
    rw [hclass]
    dsimp only
    rw [if_pos hmem, hruns.takeWhile_eq.1, hruns.takeWhile_eq.2, tail_cons]
  | number hclass tail rest hruns =>
    rcases hclass with hclass | ⟨hclass, hdigit⟩
    · rw [hclass]
      simp only [scanRun, hruns.takeWhile_eq]
    · rw [hclass]
      simp only [scanRun, hruns.takeWhile_eq, hdigit, if_pos]
  | ident hclass tail rest hruns =>
    rw [hclass]
    simp only [scanRun, hruns.takeWhile_eq]

/-- A turn cuts its stretch off the front of the source. -/
theorem scan_text : ∃ tail, segment.text = c :: tail ∧ tail ++ rest = cs := by
  cases scan_cases hscan with
  | blank | mark => exact ⟨[], rfl, rfl⟩
  | operator token alone hclass rest hcs => exact ⟨['='], rfl, hcs.symm⟩
  | string hclass body rest hruns =>
    refine ⟨body ++ [c], rfl, ?_⟩
    rw [hruns.text, append_assoc, singleton_append]
  | number hclass tail rest hruns | ident hclass tail rest hruns =>
    exact ⟨tail, rfl, hruns.text.symm⟩

theorem scan_ident {name : String} (htoken : segment.token = some (.ident name)) :
    ∃ tail, segment.text = c :: tail ∧ name = String.ofList (c :: tail) ∧ isIdentStart c = true ∧
      Runs isIdentChar cs tail rest := by
  have hfits := charClass_fits c
  cases scan_cases hscan with
  | blank | string | number => cases htoken
  | mark token hclass =>
    rw [hclass, Option.some.inj htoken] at hfits
    rcases hfits with hfits | hfits | hfits <;> cases hfits.1
  | operator token alone hclass =>
    rw [hclass, Option.some.inj htoken] at hfits
    rcases hfits with hfits | hfits <;> cases hfits.1
  | ident hclass tail rest hruns =>
    rw [hclass] at hfits
    cases htoken
    exact ⟨tail, rfl, rfl, hfits, hruns⟩

end

/-- A turn depends on what follows its stretch only through the character that ends a
number or a name. -/
theorem scan_congr {rest' : List Char} (hscan : scan c (tail ++ rest) = .ok (segment, rest))
    (htext : segment.text = c :: tail)
    (hnumber : (∀ d ∈ rest.head?, isNumberChar d = false) → ∀ d ∈ rest'.head?, isNumberChar d = false)
    (hname : ∀ name, segment.token = some (.ident name) → ∀ d ∈ rest'.head?, isIdentChar d = false) :
    scan c (tail ++ rest') = .ok (segment, rest') := by
  apply Scanned.scan_eq
  generalize hcs : tail ++ rest = cs at hscan
  cases scan_cases hscan with
  | blank hclass =>
    obtain rfl : [] = tail := (List.cons.inj htext).2
    exact .blank hclass
  | mark token hclass =>
    obtain rfl : [] = tail := (List.cons.inj htext).2
    exact .mark token hclass
  | operator token alone hclass =>
    obtain rfl : ['='] = tail := (List.cons.inj htext).2
    exact .operator token alone hclass rest' rfl
  | string hclass body rest hruns =>
    obtain rfl : body ++ [c] = tail := (List.cons.inj htext).2
    refine .string hclass body rest' ⟨by simp, hruns.inside, hruns.stops⟩
  | number hclass number rest hruns =>
    obtain rfl : number = tail := (List.cons.inj htext).2
    refine .number (hclass.imp_right fun hminus => ⟨hminus.1, ?_⟩) number rest'
      ⟨rfl, hruns.inside, hnumber hruns.stops⟩
    -- a minus sign is followed by a digit of the number itself
    cases number with
    | nil =>
      have hhead := hminus.2
      rw [hruns.text, nil_append] at hhead
      cases rest with
      | nil => cases hhead
      | cons d =>
        have hdigit : isDigit d = true := hhead
        have hstop := hruns.stops d rfl
        simp [isNumberChar, hdigit] at hstop
    | cons =>
      have hhead := hminus.2
      rw [hruns.text] at hhead
      exact hhead
  | ident hclass word rest hruns =>
    obtain rfl : word = tail := (List.cons.inj htext).2
    exact .ident hclass word rest' ⟨rfl, hruns.inside, hname _ rfl⟩

/-- The way the lexer cuts a source into stretches. -/
inductive Lexes : List Char → List Segment → Prop where
  | nil : Lexes [] []
  | cons {c : Char} {cs rest : List Char} {segment : Segment} {segments : List Segment}
      (hscan : scan c cs = .ok (segment, rest)) (hrest : Lexes rest segments) :
      Lexes (c :: cs) (segment :: segments)

/-- The stretches of a source are the source. -/
def textOf (segments : List Segment) : List Char := segments.flatMap Segment.text

theorem Lexes.textOf_eq {segments : List Segment} (hlexes : Lexes source segments) :
    textOf segments = source := by
  induction hlexes with
  | nil => rfl
  | cons hscan _ ih =>
    obtain ⟨tail, htext, rfl⟩ := scan_text hscan
    rw [textOf, flatMap_cons, htext, ← textOf, ih]
    rfl

theorem scan_rest_le (hscan : scan c cs = .ok (segment, rest)) : rest.length ≤ cs.length := by
  obtain ⟨tail, -, rfl⟩ := scan_text hscan
  exact length_append ▸ Nat.le_add_left _ _

theorem segmentsFrom_nil (fuel pos : ℕ) : segmentsFrom fuel pos [] = .ok [] := by
  cases fuel <;> rfl

/-- With enough fuel the lexer finds the segments of a source. -/
theorem Lexes.segmentsFrom_eq {segments : List Segment} (hlexes : Lexes source segments) {fuel : ℕ}
    (hfuel : source.length ≤ fuel) (pos : ℕ) : segmentsFrom fuel pos source = .ok segments := by
  induction hlexes generalizing fuel pos with
  | nil => exact segmentsFrom_nil fuel pos
  | cons hscan hrest ih =>
    cases fuel with
    | zero => exact absurd hfuel (Nat.not_succ_le_zero _)
    | succ =>
      have hshorter := scan_rest_le hscan
      rw [segmentsFrom, hscan]
      dsimp only
      rw [ih (hshorter.trans (Nat.le_of_succ_le_succ hfuel))]

/-- Whatever the lexer returns are segments of its source. -/
theorem lexes_of_segmentsFrom {fuel pos : ℕ} {segments : List Segment}
    (hfuel : source.length ≤ fuel) (hok : segmentsFrom fuel pos source = .ok segments) :
    Lexes source segments := by
  induction fuel generalizing pos source segments with
  | zero =>
    obtain rfl : source = [] := length_eq_zero_iff.mp (Nat.le_zero.mp hfuel)
    cases hok
    exact .nil
  | succ fuel ih =>
    cases source with
    | nil =>
      cases hok
      exact .nil
    | cons =>
      rw [segmentsFrom] at hok
      split at hok
      · cases hok
      · rename_i hscan
        split at hok
        · cases hok
        · rename_i htail
          cases hok
          have hshorter := scan_rest_le hscan
          exact .cons hscan (ih (hshorter.trans (Nat.le_of_succ_le_succ hfuel)) htail)

theorem segments_eq_ok {source : String} {segments : List Segment} :
    Expr.segments source = .ok segments ↔ Lexes source.toList segments :=
  ⟨lexes_of_segmentsFrom le_rfl, fun hlexes => hlexes.segmentsFrom_eq le_rfl 0⟩

/-- The lexer succeeds exactly on the sources made of segments, with their tokens. -/
theorem lex_eq_ok {source : String} {tokens : List Token} :
    lex source = .ok tokens ↔ ∃ segments, Lexes source.toList segments ∧ tokensOf segments = tokens := by
  rw [lex]
  constructor
  · intro hok
    split at hok
    · cases hok
    · rename_i segments hsegments
      cases hok
      exact ⟨segments, segments_eq_ok.mp hsegments, rfl⟩
  · rintro ⟨segments, hlexes, rfl⟩
    rw [segments_eq_ok.mpr hlexes]

/-! ## Sources side by side -/

theorem Runs.append {after : List Char} (hruns : Runs more cs tail rest)
    (hafter : ∀ d ∈ after.head?, more d = false) :
    Runs more (cs ++ after) tail (rest ++ after) where
  text := by rw [hruns.text, append_assoc]
  inside := hruns.inside
  stops := by
    cases rest with
    | nil => exact hafter
    | cons => exact hruns.stops

/-- The character ends every stretch before it. -/
def isStop (d : Char) : Bool := !isIdentChar d && !isNumberChar d

section Append

variable {after : List Char} (hafter : ∀ d ∈ after.head?, isStop d = true)

include hafter in
theorem scan_append (hscan : scan c cs = .ok (segment, rest)) :
    scan c (cs ++ after) = .ok (segment, rest ++ after) := by
  simp only [isStop, Bool.and_eq_true, Bool.not_eq_true'] at hafter
  apply Scanned.scan_eq
  cases scan_cases hscan with
  | blank hclass => exact .blank hclass
  | mark token hclass => exact .mark token hclass
  | operator token alone hclass rest hcs =>
    exact .operator token alone hclass _ (by rw [hcs, cons_append])
  | string hclass body rest hruns =>
    refine .string hclass body _ ⟨?_, hruns.inside, hruns.stops⟩
    rw [hruns.text, append_assoc, cons_append]
  | number hclass tail rest hruns =>
    refine .number (hclass.imp_right fun hminus => ⟨hminus.1, ?_⟩) tail _
      (hruns.append fun d hd => (hafter d hd).2)
    cases cs with
    | nil => nomatch hminus.2
    | cons => exact hminus.2
  | ident hclass tail rest hruns =>
    exact .ident hclass tail _ (hruns.append fun d hd => (hafter d hd).1)

include hafter in
/-- The segments of two sources side by side, where no word runs across the border. -/
theorem Lexes.append {segments more : List Segment} (hlexes : Lexes source segments)
    (hmore : Lexes after more) : Lexes (source ++ after) (segments ++ more) := by
  induction hlexes with
  | nil => exact hmore
  | cons hscan _ ih => exact .cons (scan_append hafter hscan) ih

include hafter in
/-- The stretches of a source before a stop are found again in front of it. -/
theorem Lexes.of_append {segments all : List Segment} (hlexes : Lexes source segments)
    (hall : Lexes (source ++ after) all) : ∃ more, Lexes after more ∧ all = segments ++ more := by
  induction hlexes generalizing all with
  | nil => exact ⟨all, hall, rfl⟩
  | cons hscan _ ih =>
    rw [cons_append] at hall
    cases hall with
    | cons hscan' hrest =>
      rw [scan_append hafter hscan] at hscan'
      cases hscan'
      obtain ⟨more, hmore, rfl⟩ := ih hrest
      exact ⟨more, hmore, rfl⟩

end Append

end Apiary.Expr
