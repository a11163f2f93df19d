import GraphClient.Token.Number

/-!
# Strings

`readString` reads a string behind its opening quote, up to a quote on the same line, and
`readBlockString` a block string behind its three quotes, up to the next three that no
backslash precedes. A string has escapes by letter (`letterEscape`), by four hexadecimal
digits, where a surrogate pair takes two escapes, and by digits in braces. The value of a
block string is its lines without their common indentation (`dedent`).
-/

namespace GraphClient

/-- The value of a hexadecimal digit. -/
def hexValue? (c : Char) : Option Nat :=
  let n := c.toNat
  if 48 ≤ n ∧ n ≤ 57 then some (n - 48)
  else if 65 ≤ n ∧ n ≤ 70 then some (n - 55)
  else if 97 ≤ n ∧ n ≤ 102 then some (n - 87)
  else none

def Cell.hexValue? : Cell → Option Nat
  | .whole c => GraphClient.hexValue? c
  | .half _ => none

/-- The number that four hexadecimal digits write. -/
def hexQuad? : Source → Option Nat
  | a :: b :: c :: d :: _ => do
    let a ← a.hexValue?
    let b ← b.hexValue?
    let c ← c.hexValue?
    let d ← d.hexValue?
    return ((a * 16 + b) * 16 + c) * 16 + d
  | _ => none

/-- The character that a letter after a backslash stands for. -/
def letterEscape : Char → Option Char
  | '"' => some '"'
  | '\\' => some '\\'
  | '/' => some '/'
  | 'b' => some '\x08'
  | 'f' => some '\x0c'
  | 'n' => some '\n'
  | 'r' => some '\r'
  | 't' => some '\t'
  | _ => none

/-- The first units of a backslash and what follows it. -/
def escapeText (units : Nat) (rest : Source) : String :=
  String.ofList (Source.firstUnits units (.whole '\\' :: rest))

/-- A trailing surrogate escape that completes a leading one, at the front of a text. -/
def trailingEscape? (leading : Nat) : Source → Option Char
  | .whole '\\' :: .whole 'u' :: rest =>
    match hexQuad? rest with
    | some n =>
      if 0xDC00 ≤ n ∧ n ≤ 0xDFFF then
        some (Char.ofNat (0x10000 + (leading - 0xD800) * 0x400 + (n - 0xDC00)))
      else none
    | none => none
  | _ => none

/-- Reads an escape of four digits behind its letter: the character and the cells it takes. -/
def quadEscape? (rest : Source) : Option (Char × Nat) :=
  match hexQuad? rest with
  | some n =>
    if n.isValidChar then some (Char.ofNat n, 4)
    else if n < 0xDC00 then (trailingEscape? n (rest.drop 4)).map fun c => (c, 10)
    else none
  | none => none

/-- Reads the digits and the closing brace of an escape in braces: the character and the cells
read, or the cells read up to where no such escape is possible any more. -/
def bracedEscape (value read : Nat) : Source → Except Nat (Char × Nat)
  | [] => .error (read + 1)
  | c :: rest =>
    if c = .whole '\x7d' then
      if read = 0 ∨ ¬ value.isValidChar then .error (read + 1) else .ok (Char.ofNat value, read + 1)
    else
      match c.hexValue? with
      | none => .error (read + 1)
      | some d =>
        if 0x80000000 ≤ value * 16 + d ∨ read = 8 then .error (read + 1)
        else bracedEscape (value * 16 + d) (read + 1) rest

/-- Reads an escape behind its backslash: the character and the cells it takes. -/
def readEscape (rest : Source) : Except FaultCause (Char × Nat) :=
  match rest with
  | .whole 'u' :: .whole '\x7b' :: digits =>
    match bracedEscape 0 0 digits with
    | .ok (c, n) => .ok (c, n + 2)
    | .error n => .error (.unicodeEscape (escapeText (n + 3) rest))
  | .whole 'u' :: digits =>
    match quadEscape? digits with
    | some (c, n) => .ok (c, n + 1)
    | none => .error (.unicodeEscape (escapeText 6 rest))
  | .whole c :: _ =>
    match letterEscape c with
    | some d => .ok (d, 1)
    | none => .error (.characterEscape (escapeText 2 rest))
  | _ => .error (.characterEscape (escapeText 2 rest))

def isLineBreak (c : Char) : Bool := c == '\n' || c == '\r'

/-- Reads a string behind its opening quote, `passed` cells on: its value and the number of
cells up to and with the closing quote. -/
def readString (passed : Nat) (cells : Source) : Except Misread (List Char × Nat) :=
  match cells with
  | [] => .error ⟨.unterminated, passed⟩
  | .half c :: _ => .error ⟨.insideString (.half c), passed⟩
  | .whole c :: rest =>
    if c = '"' then .ok ([], passed + 1)
    else if c = '\\' then
      match readEscape rest with
      | .error cause => .error ⟨cause, passed⟩
      | .ok (d, n) => (readString (passed + 1 + n) (rest.drop n)).map fun r => (d :: r.1, r.2)
    else if isLineBreak c then .error ⟨.unterminated, passed⟩
    else (readString (passed + 1) rest).map fun r => (c :: r.1, r.2)
termination_by cells.length
decreasing_by all_goals simp only [List.length_drop, List.length_cons]; omega

/-- Reads a block string behind its opening quotes: its text, in which three quotes stand for
three escaped ones, and the number of cells up to and with the closing quotes. -/
def readBlockString (passed : Nat) : Source → Except Misread (List Char × Nat)
  | .whole '"' :: .whole '"' :: .whole '"' :: _ => .ok ([], passed + 3)
  | .whole '\\' :: .whole '"' :: .whole '"' :: .whole '"' :: rest =>
    (readBlockString (passed + 4) rest).map fun r => ('"' :: '"' :: '"' :: r.1, r.2)
  | .whole c :: rest => (readBlockString (passed + 1) rest).map fun r => (c :: r.1, r.2)
  | .half c :: _ => .error ⟨.insideString (.half c), passed⟩
  | [] => .error ⟨.unterminated, passed⟩

namespace Block

/-- The first line of a text and the lines after it. -/
def splitLines : List Char → List Char × List (List Char)
  | [] => ([], [])
  | '\r' :: '\n' :: rest => ([], (splitLines rest).1 :: (splitLines rest).2)
  | c :: rest =>
    let (first, later) := splitLines rest
    if isLineBreak c then ([], first :: later) else (c :: first, later)

def isBlank (c : Char) : Bool := c == '\t' || c == ' '

/-- Whether a line holds only tabs and spaces. -/
def isBlankLine (line : List Char) : Bool := line.all isBlank

def indent (line : List Char) : Nat := (line.takeWhile isBlank).length

/-- The least indentation of the lines that are not blank. -/
def commonIndent (lines : List (List Char)) : Nat :=
  (((lines.filter (!isBlankLine ·)).map indent).min?).getD 0

/-- The lines of a block string, without the common indentation of all lines but the first and
without the blank lines at its ends. -/
def dedent (first : List Char) (later : List (List Char)) : List (List Char) :=
  let lines := first :: later.map (·.drop (commonIndent later))
  ((lines.dropWhile isBlankLine).reverse.dropWhile isBlankLine).reverse

/-- The value of a block string with a text between its quotes. -/
def value (text : List Char) : List Char :=
  let (first, later) := splitLines text
  (dedent first later).intersperse ['\n'] |>.flatten

end Block

end GraphClient
