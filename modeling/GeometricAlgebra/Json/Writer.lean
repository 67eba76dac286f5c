/-
  GeometricAlgebra.Json.Writer

  Writing JSON text: without blanks, or with one item per line and two spaces for each
  level.  Strings escape quotes, backslashes and control characters, and nothing else.
-/

import GeometricAlgebra.Json

namespace GeometricAlgebra.Json

/-! ## Leaves -/

/-- A character inside a string. -/
def escapeChar (c : Char) : List Char :=
  match c with
  | '"' => ['\\', '"']
  | '\\' => ['\\', '\\']
  | '\x08' => ['\\', 'b']
  | '\t' => ['\\', 't']
  | '\n' => ['\\', 'n']
  | '\x0c' => ['\\', 'f']
  | '\r' => ['\\', 'r']
  | c =>
    if c.toNat < 0x20 then
      ['\\', 'u', '0', '0', Nat.digitChar (c.toNat / 16), Nat.digitChar (c.toNat % 16)]
    else [c]

/-- A string in quotes.  What is no text is written as a surrogate that stands alone. -/
def quoted : Text → List Char
  | some s => '"' :: s.toList.flatMap escapeChar ++ ['"']
  | none => ['"', '\\', 'u', 'd', '8', '0', '0', '"']

/-- A number.  An exponent always has a sign. -/
def Number.render (n : Number) : List Char :=
  (if n.negative then ['-'] else []) ++ n.integer
    ++ (if n.fraction.isEmpty then [] else '.' :: n.fraction)
    ++ (match n.exponent with
      | none => []
      | some e => 'e' :: (if 0 ≤ e then '+' else '-') :: Decimal.digits e.natAbs)

/-! ## Trees -/

/-- The text between brackets and items. -/
structure Layout where
  -- What precedes an item at a nesting depth, after the bracket or comma.
  newline : Nat → List Char
  -- What stands between a member name and its value.
  colon : List Char

/-- No blanks. -/
def Layout.compact : Layout := ⟨fun _ => [], [':']⟩

/-- One item per line, two spaces for each level. -/
def Layout.pretty : Layout := ⟨fun depth => '\n' :: List.replicate (2 * depth) ' ', [':', ' ']⟩

mutual

/-- A value at a nesting depth.  Empty arrays and objects have nothing between their
    brackets. -/
def Value.write (l : Layout) (depth : Nat) : Value → List Char
  | .null => ['n', 'u', 'l', 'l']
  | .bool true => ['t', 'r', 'u', 'e']
  | .bool false => ['f', 'a', 'l', 's', 'e']
  | .number n => n.render
  | .string s => quoted s
  | .array [] => ['[', ']']
  | .array (v :: vs) =>
    '[' :: l.newline (depth + 1) ++ v.write l (depth + 1) ++ writeItems l (depth + 1) vs
      ++ l.newline depth ++ [']']
  | .object [] => ['{', '}']
  | .object (m :: ms) =>
    '{' :: l.newline (depth + 1) ++ writeMember l (depth + 1) m ++ writeMembers l (depth + 1) ms
      ++ l.newline depth ++ ['}']

/-- The items after the first. -/
def writeItems (l : Layout) (depth : Nat) : List Value → List Char
  | [] => []
  | v :: vs => ',' :: l.newline depth ++ v.write l depth ++ writeItems l depth vs

/-- A member of an object. -/
def writeMember (l : Layout) (depth : Nat) : Text × Value → List Char
  | (name, v) => quoted name ++ l.colon ++ v.write l depth

/-- The members after the first. -/
def writeMembers (l : Layout) (depth : Nat) : List (Text × Value) → List Char
  | [] => []
  | m :: ms => ',' :: l.newline depth ++ writeMember l depth m ++ writeMembers l depth ms

end

/-- The text of a value without blanks. -/
def Value.compact (v : Value) : String := String.ofList (v.write .compact 0)

/-- The text of a value with one item per line. -/
def Value.pretty (v : Value) : String := String.ofList (v.write .pretty 0)

end GeometricAlgebra.Json
