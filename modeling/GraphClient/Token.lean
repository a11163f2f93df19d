import GraphClient.Source

/-!
# Tokens

A `Token` is a punctuator, a name, a number or a string, with the text it was read from
(`lexeme`), the ignored text before it (`gap`) and the place where it starts. A `Fault` is
a place where no token could be read, and why.
-/

namespace GraphClient

inductive Punctuator where
  | bang | dollar | amp | parenL | parenR | spread | colon | equals | atSign
  | bracketL | bracketR | braceL | pipe | braceR
  deriving DecidableEq, Repr

/-- The characters of a punctuator. -/
def Punctuator.text : Punctuator → String
  | bang => "!"
  | dollar => "$"
  | amp => "&"
  | parenL => "("
  | parenR => ")"
  | spread => "..."
  | colon => ":"
  | equals => "="
  | atSign => "@"
  | bracketL => "["
  | bracketR => "]"
  | braceL => "\x7b"
  | pipe => "|"
  | braceR => "\x7d"

/-- What a token is; a string comes with its value. -/
inductive TokenKind where
  | punctuator (p : Punctuator)
  | name (text : String)
  | int
  | float
  | string (value : String)
  | blockString (value : String)
  deriving DecidableEq, Repr

namespace TokenKind

/-- The word for a kind in a message. -/
def label : TokenKind → String
  | punctuator p => p.text
  | name _ => "Name"
  | int => "Int"
  | float => "Float"
  | string _ => "String"
  | blockString _ => "BlockString"

end TokenKind

/-- A kind of token at a place. -/
structure Occurrence where
  kind : TokenKind
  place : Place
  deriving DecidableEq, Repr

structure Token extends Occurrence where
  gap : Source
  lexeme : Source
  deriving DecidableEq, Repr

namespace Token

def line (t : Token) : Nat := t.place.line

/-- Whether a token is a given punctuator. -/
def is (t : Token) (p : Punctuator) : Bool := t.kind == .punctuator p

def name? (t : Token) : Option String :=
  match t.kind with
  | .name text => some text
  | _ => none

/-- The value of a string, which may describe what follows it. -/
def string? (t : Token) : Option String :=
  match t.kind with
  | .string value | .blockString value => some value
  | _ => none

end Token

/-- Why no token can be read; a character that was found is `none` at the end of the text. -/
inductive FaultCause where
  | unexpected (found : Cell)
  | digitAfterZero (found : Option Cell)
  | digitMissing (found : Option Cell)
  | unterminated
  | insideString (found : Cell)
  | characterEscape (text : String)
  | unicodeEscape (text : String)
  deriving DecidableEq, Repr

/-- A number in capital hexadecimal digits, at least four of them. -/
def hexCode (n : Nat) : String :=
  let digits := (Nat.toDigits 16 n).map Char.toUpper
  "U+" ++ String.ofList (List.replicate (4 - digits.length) '0' ++ digits)

/-- A character as a message shows it. -/
def Cell.shown : Cell → String
  | .whole c =>
    if 0x20 ≤ c.toNat ∧ c.toNat ≤ 0x7E then
      if c = '"' then "'\"'" else "\"" ++ c.toString ++ "\""
    else hexCode c.toNat
  | .half c => hexCode (0xDC00 + (c.toNat - 0x10000) % 0x400)

/-- A found character, or the end of the text, as a message shows it. -/
def shownCell : Option Cell → String
  | some c => c.shown
  | none => "<EOF>"

namespace FaultCause

def message : FaultCause → String
  | unexpected (.whole c) =>
    if c = '\'' then
      "Unexpected single quote character ('), did you mean to use a double quote (\")?"
    else "Unexpected character: " ++ (Cell.whole c).shown ++ "."
  | unexpected (.half c) => "Invalid character: " ++ (Cell.half c).shown ++ "."
  | digitAfterZero found => "Invalid number, unexpected digit after 0: " ++ shownCell found ++ "."
  | digitMissing found => "Invalid number, expected digit but got: " ++ shownCell found ++ "."
  | unterminated => "Unterminated string."
  | insideString found => "Invalid character within String: " ++ found.shown ++ "."
  | characterEscape text => "Invalid character escape sequence: \"" ++ text ++ "\"."
  | unicodeEscape text => "Invalid Unicode escape sequence: \"" ++ text ++ "\"."

end FaultCause

/-- A place where no token can be read, `position` units into the text. -/
structure Fault where
  cause : FaultCause
  position : Nat
  place : Place
  deriving DecidableEq, Repr

/-- The message of a fault, with its place. -/
def Fault.message (f : Fault) : String :=
  s!"Syntax Error: {f.cause.message} (line {f.place.line}, column {f.place.column})"

end GraphClient
