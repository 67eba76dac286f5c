/-
  GeometricAlgebra.Json.Reader

  Reading JSON text.  The syntax is strict: no comments, no trailing commas, no leading
  zeros or plus signs, no raw control characters in strings, and nothing but blanks around
  the value.  `Json.read?` is total: every step of the reader either takes a character or
  ends, so the length of the text bounds its depth.
-/

import GeometricAlgebra.Json

namespace GeometricAlgebra.Json

/-! ## Blanks -/

/-- Space, tab, line feed and carriage return. -/
def isBlank (c : Char) : Bool := c == ' ' || c == '\t' || c == '\n' || c == '\r'

/-- The text after its leading blanks. -/
def skipBlanks (cs : List Char) : List Char := cs.dropWhile isBlank

/-! ## Numbers -/

/-- Digits at the start of a text, at least one, and the rest. -/
def readDigits? (cs : List Char) : Option (List Char × List Char) :=
  match cs.takeWhile Char.isDigit with
  | [] => none
  | ds => some (ds, cs.dropWhile Char.isDigit)

/-- The integer digits: a single zero, or digits that do not start with one. -/
def readInteger? : List Char → Option (List Char × List Char)
  | '0' :: cs => some (['0'], cs)
  | cs => readDigits? cs

/-- The fraction digits after a point, if there is a point. -/
def readFraction? : List Char → Option (List Char × List Char)
  | '.' :: cs => readDigits? cs
  | cs => some ([], cs)

/-- The sign of an exponent and the rest; true for a minus. -/
def readExponentSign : List Char → Bool × List Char
  | '-' :: cs => (true, cs)
  | '+' :: cs => (false, cs)
  | cs => (false, cs)

/-- The power of ten after an exponent mark, if there is a mark. -/
def readExponent? : List Char → Option (Option Int × List Char)
  | c :: cs =>
    if c == 'e' || c == 'E' then do
      let (negative, cs) := readExponentSign cs
      let (ds, cs) ← readDigits? cs
      let e : Int := Decimal.digitsValue ds
      return (some (if negative then -e else e), cs)
    else some (none, c :: cs)
  | [] => some (none, [])

/-- A minus sign and the rest. -/
def readMinus : List Char → Bool × List Char
  | '-' :: cs => (true, cs)
  | cs => (false, cs)

/-- A number and the rest. -/
def readNumber? (cs : List Char) : Option (Number × List Char) := do
  let (negative, cs) := readMinus cs
  let (integer, cs) ← readInteger? cs
  let (fraction, cs) ← readFraction? cs
  let (exponent, cs) ← readExponent? cs
  return ({ negative, integer, fraction, exponent }, cs)

/-! ## Strings -/

/-- A character of a string, or the 16 bits that a `\u` escape denotes. -/
inductive Piece where
  | char (c : Char)
  | unit (n : Nat)
deriving DecidableEq, Repr

/-- The value of a hexadecimal digit. -/
def hexValue? (c : Char) : Option Nat :=
  if c.isDigit then some (c.toNat - '0'.toNat)
  else if 'a' ≤ c ∧ c ≤ 'f' then some (c.toNat - 'a'.toNat + 10)
  else if 'A' ≤ c ∧ c ≤ 'F' then some (c.toNat - 'A'.toNat + 10)
  else none

/-- The number of four hexadecimal digits. -/
def hexUnit? (a b c d : Char) : Option Nat := do
  return (((← hexValue? a) * 16 + (← hexValue? b)) * 16 + (← hexValue? c)) * 16 + (← hexValue? d)

/-- The characters that a backslash and one letter stand for. -/
def shortEscape? : Char → Option Char
  | '"' => some '"'
  | '\\' => some '\\'
  | '/' => some '/'
  | 'b' => some '\x08'
  | 'f' => some '\x0c'
  | 'n' => some '\n'
  | 'r' => some '\r'
  | 't' => some '\t'
  | _ => none

/-- The pieces of a string up to its closing quote, and the rest. -/
def readPieces? : List Char → Option (List Piece × List Char)
  | [] => none
  | '"' :: cs => some ([], cs)
  | '\\' :: 'u' :: a :: b :: c :: d :: cs => do
    let n ← hexUnit? a b c d
    let (ps, cs) ← readPieces? cs
    return (.unit n :: ps, cs)
  | '\\' :: e :: cs => do
    let c ← shortEscape? e
    let (ps, cs) ← readPieces? cs
    return (.char c :: ps, cs)
  | c :: cs =>
    if c.toNat < 0x20 || c == '\\' then none
    else do
      let (ps, cs) ← readPieces? cs
      return (.char c :: ps, cs)

/-- Whether 16 bits are the first half of a surrogate pair. -/
def isHighSurrogate (n : Nat) : Bool := 0xD800 ≤ n && n < 0xDC00

/-- Whether 16 bits are the second half of a surrogate pair. -/
def isLowSurrogate (n : Nat) : Bool := 0xDC00 ≤ n && n < 0xE000

/-- The character of a surrogate pair. -/
def pairChar (high low : Nat) : Char :=
  Char.ofNat (0x10000 + (high - 0xD800) * 0x400 + (low - 0xDC00))

/-- The characters of a string; `none` if a surrogate stands alone. -/
def decodePieces? : List Piece → Option (List Char)
  | [] => some []
  | .char c :: ps => (decodePieces? ps).map (c :: ·)
  | .unit high :: .unit low :: ps =>
    if isHighSurrogate high && isLowSurrogate low then
      (decodePieces? ps).map (pairChar high low :: ·)
    else if isHighSurrogate high || isLowSurrogate high then none
    else (decodePieces? (.unit low :: ps)).map (Char.ofNat high :: ·)
  | .unit n :: ps =>
    if isHighSurrogate n || isLowSurrogate n then none
    else (decodePieces? ps).map (Char.ofNat n :: ·)

/-- The text of a string after its opening quote, and the rest. -/
def readText? (cs : List Char) : Option (Text × List Char) := do
  let (ps, cs) ← readPieces? cs
  return ((decodePieces? ps).map String.ofList, cs)

/-! ## Values -/

/-- The rest of a text after a comma (true) or a closing character (false), whichever
    comes after the blanks. -/
def readDelimiter? (closing : Char) (cs : List Char) : Option (Bool × List Char) :=
  match skipBlanks cs with
  | c :: cs => if c == ',' then some (true, cs) else if c == closing then some (false, cs) else none
  | [] => none

/-- A quoted member name and the rest after the colon. -/
def readName? (cs : List Char) : Option (Text × List Char) :=
  match skipBlanks cs with
  | '"' :: cs => do
    let (name, cs) ← readText? cs
    match skipBlanks cs with
    | ':' :: cs => return (name, cs)
    | _ => none
  | _ => none

mutual

/-- A value after blanks, and the rest. -/
def readValue? : Nat → List Char → Option (Value × List Char)
  | 0, _ => none
  | fuel + 1, cs =>
    match skipBlanks cs with
    | 'n' :: 'u' :: 'l' :: 'l' :: cs => some (.null, cs)
    | 't' :: 'r' :: 'u' :: 'e' :: cs => some (.bool true, cs)
    | 'f' :: 'a' :: 'l' :: 's' :: 'e' :: cs => some (.bool false, cs)
    | '"' :: cs => do
      let (s, cs) ← readText? cs
      return (.string s, cs)
    | '[' :: cs =>
      match skipBlanks cs with
      | ']' :: cs => some (.array [], cs)
      | cs => do
        let (items, cs) ← readItems? fuel cs
        return (.array items, cs)
    | '{' :: cs =>
      match skipBlanks cs with
      | '}' :: cs => some (.object [], cs)
      | cs => do
        let (members, cs) ← readMembers? fuel cs
        return (.object members, cs)
    | cs => do
      let (n, cs) ← readNumber? cs
      return (.number n, cs)

/-- The items of an array that has at least one, and the rest after the bracket. -/
def readItems? : Nat → List Char → Option (List Value × List Char)
  | 0, _ => none
  | fuel + 1, cs => do
    let (v, cs) ← readValue? fuel cs
    let (more, cs) ← readDelimiter? ']' cs
    if more then
      let (vs, cs) ← readItems? fuel cs
      return (v :: vs, cs)
    else return ([v], cs)

/-- The members of an object that has at least one, and the rest after the brace. -/
def readMembers? : Nat → List Char → Option (List (Text × Value) × List Char)
  | 0, _ => none
  | fuel + 1, cs => do
    let (name, cs) ← readName? cs
    let (v, cs) ← readValue? fuel cs
    let (more, cs) ← readDelimiter? '}' cs
    if more then
      let (ms, cs) ← readMembers? fuel cs
      return ((name, v) :: ms, cs)
    else return ([(name, v)], cs)

end

/-- The value of a JSON text. -/
def read? (text : String) : Option Value := do
  let cs := text.toList
  let (v, rest) ← readValue? (2 * cs.length + 1) cs
  if (skipBlanks rest).isEmpty then return v else none

end GeometricAlgebra.Json
