import Apiary.Core.Text
import Mathlib.Data.List.DropRight

/-!
# The advisor's redactor

`RedactConfig` goes through a configuration line by line.  A line's value is blanked
when the line matches one of two regular expressions; the second one applies inside
the lines that a header `env:` opens.  The matchers below compute the split of the
line that the source's leftmost-first expressions choose: the blanks of a margin are
never given back, since no key starts with one, and the leading `.*` of a suffix key
takes as much as it can, so it is the last such key of the line that counts.
-/

namespace Apiary.Improve

/-! ## Matching a line -/

/-- The class `\s`. -/
def isBlank (c : Char) : Bool := c ∈ ['\t', '\n', '\x0c', '\r', ' ']

/-- The group `(\s*:\s*)` and what follows it. -/
def colonLead (t : Text) : Option (Text × Text) :=
  match t.dropWhile isBlank with
  | ':' :: rest =>
    some (t.takeWhile isBlank ++ ':' :: rest.takeWhile isBlank, rest.dropWhile isBlank)
  | _ => none

/-- The groups `(\s*:\s*)(.+)$`: a value of blanks alone takes the last of them back. -/
def colonValue (t : Text) : Option (Text × Text) :=
  match colonLead t with
  | none => none
  | some (sep, value) =>
    if value ≠ [] then some (sep, value)
    else if sep.getLast? = some ':' then none
    else some (sep.dropLast, sep.drop (sep.length - 1))

/-- Folding of letters under `(?i)`: the long s and the Kelvin sign fold as well. -/
def foldCase (c : Char) : Char :=
  if 'A' ≤ c ∧ c ≤ 'Z' then Char.ofNat (c.toNat + ('a'.toNat - 'A'.toNat))
  else if c = '\u017F' then 's'
  else if c = '\u212A' then 'k'
  else c

/-- A key that stands at the front, with its colon and its value. -/
def keyed (key : Text) (t : Text) : Option (Text × Text) :=
  if (t.take key.length).map foldCase = key then
    (colonValue (t.drop key.length)).map fun split => (t.take key.length ++ split.1, split.2)
  else none

/-- The group `.*` followed by the key: later places are tried first. -/
def suffixKeyed (key : Text) : Text → Option (Text × Text)
  | [] => none
  | c :: t =>
    match suffixKeyed key t with
    | some split => some (c :: split.1, split.2)
    | none => keyed key (c :: t)

def secretNames : List Text :=
  ["source_token".toList, "token".toList, "api_key".toList, "apikey".toList,
    "password".toList, "secret".toList]

def secretNamed (t : Text) : Option (Text × Text) :=
  match secretNames.findSome? fun name => keyed name t with
  | some split => some split
  | none =>
    match suffixKeyed "_token".toList t with
    | some split => some split
    | none => suffixKeyed "_key".toList t

/-- The group `(\s*(?:-\s*)?)` and what follows it. -/
def margin (line : Text) : Text × Text :=
  match line.dropWhile isBlank with
  | '-' :: rest => (line.takeWhile isBlank ++ '-' :: rest.takeWhile isBlank, rest.dropWhile isBlank)
  | body => (line.takeWhile isBlank, body)

def secretKeys (line : Text) : Option (Text × Text) :=
  (secretNamed (margin line).2).map fun split => ((margin line).1 ++ split.1, split.2)

def isNameStart (c : Char) : Bool := ('A' ≤ c && c ≤ 'Z') || ('a' ≤ c && c ≤ 'z') || c = '_'

def isNameChar (c : Char) : Bool := isNameStart c || ('0' ≤ c && c ≤ '9')

/-- An indented name, which starts with no digit, and what follows it. -/
def envValueLine (line : Text) : Option (Text × Text) :=
  let indent := line.takeWhile isBlank
  let body := line.dropWhile isBlank
  if indent ≠ [] ∧ body.head?.any isNameStart = true then
    (colonValue (body.dropWhile isNameChar)).map fun split =>
      (indent ++ (body.takeWhile isNameChar ++ split.1), split.2)
  else none

/-! ## Redacting -/

/-- A value that is taken for a pure variable reference. -/
def isReference (v : Text) : Bool :=
  "$\x7b".toList.isPrefixOf v && "\x7d".toList.isSuffixOf v && !(v.contains ' ')

def redacted : Text := "<redacted>".toList

def redactedFor (value : Text) : Text :=
  if isReference (trimSpace value) then trimSpace value else redacted

def indentOf (line : Text) : ℕ := (line.takeWhile fun c => c = ' ' || c = '\t').length

/-- Whether the scan is inside of an env block, and the indentation of its header. -/
structure Scan where
  inEnvBlock : Bool := false
  envIndent : ℕ := 0
  deriving DecidableEq

def isEnvHeader (line : Text) : Bool :=
  trimSpace line = "env:".toList || " env:".toList.isSuffixOf (trimSpace line)

def redactSecret (line : Text) : Text :=
  match secretKeys line with
  | some (lead, value) => lead ++ redactedFor value
  | none => line

def redactLine (s : Scan) (line : Text) : Text :=
  if isEnvHeader line then line
  else if s.inEnvBlock then
    if trimSpace line = [] then line
    else if indentOf line ≤ s.envIndent then redactSecret line
    else
      match envValueLine line with
      | some (lead, value) => lead ++ redactedFor value
      | none => redactSecret line
  else redactSecret line

def scanLine (s : Scan) (line : Text) : Scan :=
  if isEnvHeader line then { inEnvBlock := true, envIndent := indentOf line }
  else if s.inEnvBlock then
    if trimSpace line = [] then s
    else if indentOf line ≤ s.envIndent then { s with inEnvBlock := false }
    else s
  else s

def redactLines : Scan → List Text → List Text
  | _, [] => []
  | s, line :: lines => redactLine s line :: redactLines (scanLine s line) lines

def redactConfig (raw : Text) : Text := ['\n'].intercalate (redactLines {} (raw.splitOn '\n'))

end Apiary.Improve
