/-
  GeometricAlgebra.Text.Token

  Tokens of the multivector notation, and the lexer.  A text is read byte by byte; bytes up
  to the space separate tokens.  Identifiers are resolved against the names of the basis
  vectors.  Lexing never fails: what is no token is a bad token, and lexing goes on behind it.

    * `Token.scan`: the longest token at the start of a text.
    * `Cursor.next`: the next token with its position, and the cursor behind it.
    * `Cursor.lexemes`: all tokens up to the end of the text.
-/

import GeometricAlgebra.Text.NumberText

namespace GeometricAlgebra.Text

/-! ## Tokens -/

/-- A token of the notation. -/
inductive Token (α : Type) where
  | number (x : α)
  -- A basis vector, by index.
  | vector (i : Nat)
  | wedge
  | times
  | plus
  | minus
  | stop
  -- A byte that starts no token.
  | badCharacter
  -- A number without digits, or an exponent mark without exponent digits.
  | badNumber
  -- An identifier that names no basis vector.
  | badIdentifier
deriving BEq, DecidableEq, Repr

/-- Bytes up to the space separate tokens. -/
def isSeparator (c : Char) : Bool := c ≤ ' '

/-- Letters and the underscore start an identifier. -/
def isIdentifierStart (c : Char) : Bool := c.isAlpha || c == '_'

/-- Digits may follow. -/
def isIdentifierRest (c : Char) : Bool := c.isAlphanum || c == '_'

namespace Token

variable {α : Type} [Numeral α]

/-- The token of an identifier; the first of several equal names counts. -/
def ofIdentifier (names : List String) (cs : List Char) : Token α :=
  match names.findIdx? (· == String.ofList cs) with
  | some i => vector i
  | none => badIdentifier

/-- The token that starts with `c`, and how many of the characters behind `c` belong to
    it. -/
def scan (names : List String) (c : Char) (cs : List Char) : Token α × Nat :=
  if c == '^' then (wedge, 0)
  else if c == '*' then (times, 0)
  else if c == '+' then (plus, 0)
  else if c == '-' then (minus, 0)
  else if c.isDigit || c == '.' then
    match scanNumber (c :: cs) with
    | (width, some d) => (number (Numeral.nearest d), width - 1)
    | (width, none) => (badNumber, width - 1)
  else if isIdentifierStart c then
    let rest := cs.takeWhile isIdentifierRest
    (ofIdentifier names (c :: rest), rest.length)
  else (badCharacter, 0)

end Token

/-! ## Positions -/

/-- A token and where it stands.  Lines and columns count from one, offsets from zero; columns
    and offsets count bytes. -/
structure Lexeme (α : Type) where
  token : Token α
  line : Nat
  column : Nat
  -- The offset of the first byte.
  start : Nat
  -- The offset behind the last byte.
  stop : Nat
deriving BEq, Repr

/-- The bytes of a text in UTF-8, each as the character of its value. -/
def bytes (text : String) : List Char :=
  text.toList.flatMap fun c => (String.utf8EncodeChar c).map fun b => Char.ofNat b.toNat

/-- A place in a text. -/
structure Cursor where
  -- The bytes that follow.
  rest : List Char
  offset : Nat
  line : Nat
  column : Nat
deriving DecidableEq, Repr

namespace Cursor

/-- The start of a text. -/
def ofText (text : String) : Cursor := ⟨bytes text, 0, 1, 1⟩

/-- The place behind the separators `cs` and those before them. -/
def skip : List Char → Nat → Nat → Nat → Cursor
  | [], offset, line, column => ⟨[], offset, line, column⟩
  | c :: cs, offset, line, column =>
    if isSeparator c then
      if c == '\n' then skip cs (offset + 1) (line + 1) 1
      else skip cs (offset + 1) line (column + 1)
    else ⟨c :: cs, offset, line, column⟩

/-- The place behind the separators that follow. -/
def skipSeparators (c : Cursor) : Cursor := skip c.rest c.offset c.line c.column

theorem length_rest_skip (cs : List Char) (offset line column : Nat) :
    (skip cs offset line column).rest.length ≤ cs.length := by
  induction cs generalizing offset line column with
  | nil => simp [skip]
  | cons c cs ih =>
    simp only [skip]
    split
    · split
      · exact Nat.le_succ_of_le (ih ..)
      · exact Nat.le_succ_of_le (ih ..)
    · simp

/-- The place behind a token of which `extra` bytes follow the first; `cs` are the bytes
    behind the first. -/
def advance (c : Cursor) (cs : List Char) (extra : Nat) : Cursor :=
  { c with
    rest := cs.drop extra
    offset := c.offset + extra + 1
    column := c.column + extra + 1 }

/-- A token of `width` bytes at a place. -/
def lexeme {α : Type} (c : Cursor) (token : Token α) (width : Nat) : Lexeme α :=
  { token := token, line := c.line, column := c.column, start := c.offset, stop := c.offset + width }

variable {α : Type} [Numeral α]

/-- The next token and the place behind it.  At the end of the text the place stays. -/
def next (names : List String) (c : Cursor) : Lexeme α × Cursor :=
  let d := c.skipSeparators
  match d.rest with
  | [] => (d.lexeme .stop 0, d)
  | ch :: cs =>
    let (token, extra) := Token.scan names ch cs
    (d.lexeme token (extra + 1), d.advance cs extra)

/-- The tokens from a place up to the end of the text, the end included. -/
def lexemes (names : List String) (c : Cursor) : List (Lexeme α) :=
  match h : c.skipSeparators.rest with
  | [] => [c.skipSeparators.lexeme .stop 0]
  | ch :: cs =>
    let t : Token α × Nat := Token.scan names ch cs
    c.skipSeparators.lexeme t.1 (t.2 + 1) :: lexemes names (c.skipSeparators.advance cs t.2)
termination_by c.rest.length
decreasing_by
  have := length_rest_skip c.rest c.offset c.line c.column
  rw [show skip c.rest c.offset c.line c.column = c.skipSeparators from rfl, h] at this
  simp only [advance, List.length_drop, List.length_cons] at this ⊢
  omega

end Cursor

/-- The tokens of a text, the end included. -/
def lexemes {α : Type} [Numeral α] (names : List String) (text : String) : List (Lexeme α) :=
  (Cursor.ofText text).lexemes names

end GeometricAlgebra.Text
