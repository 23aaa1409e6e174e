import Mathlib.Algebra.GroupWithZero.Nat

/-!
# Texts

A text is the list of its characters.  Where the code measures one, it counts bytes of
UTF-8; where it trims one, it removes what Unicode calls white space; and where an error
quotes one, it escapes.
-/

namespace Apiary

abbrev Text := List Char

def byteLength (text : Text) : ℕ := (text.map Char.utf8Size).sum

@[simp]
theorem byteLength_nil : byteLength [] = 0 := rfl

@[simp]
theorem byteLength_append (a b : Text) : byteLength (a ++ b) = byteLength a + byteLength b := by
  simp [byteLength]

@[simp]
theorem byteLength_cons (c : Char) (text : Text) :
    byteLength (c :: text) = c.utf8Size + byteLength text := by
  simp [byteLength]

theorem byteLength_flatten (parts : List Text) :
    byteLength parts.flatten = (parts.map byteLength).sum := by
  induction parts with
  | nil => rfl
  | cons part parts ih => rw [List.flatten_cons, byteLength_append, ih, List.map_cons, List.sum_cons]

/-- The white space that trimming removes. -/
def isSpace (c : Char) : Bool :=
  c.toNat ∈ [0x09, 0x0A, 0x0B, 0x0C, 0x0D, 0x20, 0x85, 0xA0, 0x1680, 0x2028, 0x2029,
      0x202F, 0x205F, 0x3000] ||
    (0x2000 ≤ c.toNat && c.toNat ≤ 0x200A)

def trimSpace (s : List Char) : List Char :=
  ((s.dropWhile isSpace).reverse.dropWhile isSpace).reverse

/-- `TrimSpace` on a string. -/
def trimmed (s : String) : String := String.ofList (trimSpace s.toList)

/-- The escapes of `%q` within ASCII; outside of it a character stands for itself. -/
def escaped (c : Char) : Text :=
  match c.toNat with
  | 0x07 => ['\\', 'a']
  | 0x08 => ['\\', 'b']
  | 0x09 => ['\\', 't']
  | 0x0A => ['\\', 'n']
  | 0x0B => ['\\', 'v']
  | 0x0C => ['\\', 'f']
  | 0x0D => ['\\', 'r']
  | 0x22 => ['\\', '"']
  | 0x5C => ['\\', '\\']
  | n =>
    if n < 0x20 || n = 0x7F then
      ['\\', 'x', Nat.digitChar (n / 0x10), Nat.digitChar (n % 0x10)]
    else [c]

/-- `%q`. -/
def quote (s : String) : String := String.ofList ('"' :: s.toList.flatMap escaped ++ ['"'])

end Apiary
