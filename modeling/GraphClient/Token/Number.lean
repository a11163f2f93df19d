import GraphClient.Token

/-!
# Numbers

`readNumber` reads a number at the front of a text: an optional minus, digits without a
zero before other digits, then optionally a point with digits and an exponent with digits.
A number without point and exponent is an int. No point and no name may follow it.
-/

namespace GraphClient

/-- A place where reading failed, `passed` cells on. -/
structure Misread where
  cause : FaultCause
  passed : Nat
  deriving DecidableEq, Repr

/-- The rest of a text, with the number of cells passed before it. -/
structure Front where
  passed : Nat
  rest : Source
  deriving DecidableEq, Repr

namespace Front

/-- Passes one cell if it is in a class. -/
def optional (p : Char → Bool) (f : Front) : Front :=
  match f.rest with
  | [] => f
  | c :: rest => if c.satisfies p then ⟨f.passed + 1, rest⟩ else f

/-- Passes digits, at least one. -/
def digits (f : Front) : Except Misread Front :=
  let ds := f.rest.takeWhile (Cell.satisfies Char.isDigit)
  if ds.isEmpty then .error ⟨.digitMissing f.rest.head?, f.passed⟩
  else .ok ⟨f.passed + ds.length, f.rest.dropWhile (Cell.satisfies Char.isDigit)⟩

/-- Passes a zero or digits that start with another. -/
def whole (f : Front) : Except Misread Front :=
  match f.rest with
  | .whole '0' :: rest =>
    if rest.head?.any (Cell.satisfies Char.isDigit) then
      .error ⟨.digitAfterZero rest.head?, f.passed + 1⟩
    else .ok ⟨f.passed + 1, rest⟩
  | _ => f.digits

/-- Passes a point and digits, if there is a point. -/
def fraction (f : Front) : Except Misread Front :=
  match f.rest with
  | .whole '.' :: rest => Front.digits ⟨f.passed + 1, rest⟩
  | _ => .ok f

def isExponentMark (c : Char) : Bool := c == 'e' || c == 'E'

def isSign (c : Char) : Bool := c == '+' || c == '-'

/-- Passes an exponent, if its letter is there. -/
def exponent (f : Front) : Except Misread Front :=
  match f.rest with
  | c :: rest =>
    if c.satisfies isExponentMark then (Front.optional isSign ⟨f.passed + 1, rest⟩).digits
    else .ok f
  | [] => .ok f

/-- What may not follow a number. -/
def continuesNumber (c : Char) : Bool := c == '.' || c.isAlpha || c == '_'

end Front

/-- Reads the number at the front of a text: its kind and the number of its cells. -/
def readNumber (cells : Source) : Except Misread (TokenKind × Nat) := do
  let whole ← (Front.optional (· == '-') ⟨0, cells⟩).whole
  let fraction ← whole.fraction
  let last ← fraction.exponent
  if last.rest.head?.any (Cell.satisfies Front.continuesNumber) then
    .error ⟨.digitMissing last.rest.head?, last.passed⟩
  else
    .ok (if last.passed = whole.passed then .int else .float, last.passed)

end GraphClient
