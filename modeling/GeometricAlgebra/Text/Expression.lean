/-
  GeometricAlgebra.Text.Expression

  Multivectors as sums of terms, and their notation:

      multivector := sign* term (sign+ term)*
      term        := NUMBER [('*' | '^') blade] | blade
      blade       := VECTOR ('^' VECTOR)*

  or nothing at all.  The reader is a machine that takes one token at a time; it stops at the
  first token that no multivector has at that place.

    * `readTerms`: the terms of a token list.
    * `Clifford.evaluate`: the multivector of a list of terms.
    * `Clifford.parse`: the multivector of a text.
-/

import GeometricAlgebra.Multivector.Dense
import GeometricAlgebra.Text.Token

namespace GeometricAlgebra.Text

/-! ## Terms -/

/-- A term as written. -/
structure Term (α : Type) where
  -- The product of the signs before it.
  sign : Sign
  -- The number, if one is written.
  number : Option α
  -- The wedged basis vectors, in written order.
  vectors : List Nat
deriving DecidableEq, Repr

/-- What a reader has seen since the last complete term. -/
inductive State (α : Type) where
  -- Nothing: the text may end here.
  | start
  -- Signs.
  | signed (sign : Sign)
  -- A number, which may be a term of its own.
  | number (term : Term α)
  -- A term up to a `*` or `^`.
  | wedge (term : Term α)
  -- A term that ends with a basis vector.
  | vector (term : Term α)
deriving DecidableEq, Repr

/-- The fault of a token in a place that needs something else. -/
def faultOf {α : Type} (token : Token α) (expected : ParseFault) : ParseFault :=
  match token with
  | .badCharacter => .badCharacter
  | .badNumber => .badNumber
  | .badIdentifier => .badIdentifier
  | _ => expected

namespace State

variable {α : Type}

/-- A token where a term or a sign may start, after the given sign. -/
def startTerm (sign : Sign) (token : Token α) : Except ParseFault (State α) :=
  match token with
  | .plus => .ok (.signed sign)
  | .minus => .ok (.signed sign.opposite)
  | .number x => .ok (.number ⟨sign, some x, []⟩)
  | .vector i => .ok (.vector ⟨sign, none, [i]⟩)
  | t => .error (faultOf t .unexpectedToken)

/-- A token that ends a complete term. -/
def endTerm (token : Token α) : Except ParseFault (State α) :=
  match token with
  | .plus => .ok (.signed .plus)
  | .minus => .ok (.signed .minus)
  | .stop => .ok .start
  | t => .error (faultOf t .expectedSign)

/-- One step of the reader: the term that the token completes, if any, and what has been seen
    after the token. -/
def step (s : State α) (token : Token α) : Except ParseFault (Option (Term α) × State α) :=
  match s, token with
  | start, .stop => .ok (none, start)
  | start, t => return (none, ← startTerm .plus t)
  | signed sign, t => return (none, ← startTerm sign t)
  | number term, .times => .ok (none, wedge term)
  | number term, .wedge => .ok (none, wedge term)
  | number term, t => return (some term, ← endTerm t)
  | wedge term, .vector i => .ok (none, vector { term with vectors := term.vectors ++ [i] })
  | wedge _, t => .error (faultOf t .expectedBasisVector)
  | vector term, .wedge => .ok (none, wedge term)
  | vector term, t => return (some term, ← endTerm t)

end State

/-- The terms of a token list, from a state on.  `source` names the text in errors. -/
def readTerms {α : Type} (source : String) : State α → List (Lexeme α) →
    Except ParseError (List (Term α))
  | _, [] => .ok []
  | s, l :: ls =>
    match s.step l.token with
    | .error fault => .error { fault := fault, line := l.line, column := l.column, source := source }
    | .ok (done, s) => return done.toList ++ (← readTerms source s ls)

end GeometricAlgebra.Text

namespace GeometricAlgebra.Clifford

open Text (Term)

variable {α : Type}

/-! ## Values -/

/-- The coordinate of a term at its blade, with respect to the stored orientation.  A term that
    repeats a vector is zero. -/
def termCoordinate [Scalar α] (A : Clifford α) (t : Term α) : α :=
  match Blade.wedge? t.vectors with
  | none => 0
  | some (sign, blade) =>
    (t.sign * sign).toScalar * t.number.getD 1 / (A.table.signOf blade).toScalar

/-- Adds a term to a dense buffer, at the blade of its vectors. -/
def addTerm [Scalar α] (A : Clifford α) (dense : Coordinates α) (t : Term α) : Coordinates α :=
  dense.modify (A.table.index (.ofVectors t.vectors)) (· + A.termCoordinate t)

/-- The sum of terms, without zero groups. -/
def evaluate [Scalar α] (A : Clifford α) (terms : List (Term α)) : Multivector α :=
  A.compress (terms.foldl A.addTerm A.denseZeros) 0 A.table.fullSet

variable [Numeral α] (A : Clifford α)

/-- The multivector of a text; `source` names the text in errors. -/
def parseNamed (text source : String) : Except ParseError (Multivector α) := do
  let terms ← Text.readTerms source .start (Text.lexemes A.config.vectors text)
  return A.evaluate terms

/-- The multivector of a text without a name. -/
def parse (text : String) : Except ParseError (Multivector α) := A.parseNamed text "string"

end GeometricAlgebra.Clifford
