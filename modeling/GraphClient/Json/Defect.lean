import GraphClient.Json
import GraphClient.Source

/-!
# Texts that are no data

A `Defect` is the first flaw of a text that is no data, and what is left of the text where
the flaw shows. Its message gives the place, or quotes the ten units before and after a
character that has no business there (`excerpt`).
-/

namespace GraphClient.Json

/-- In what way a text is no data: a character is unexpected, something else must come, a string
does not end or holds what it must not hold, or digits are missing. -/
inductive Flaw where
  | unexpected
  | memberOrBrace
  | member
  | colon
  | commaOrBrace
  | commaOrBracket
  | trailing
  | unterminated
  | control
  | escape
  | unicodeEscape
  | minusAlone
  | fraction
  | exponent
  deriving DecidableEq, Repr

/-- What a message says about a flaw in front of its place. -/
def Flaw.phrase : Flaw → String
  | unexpected => "Unexpected token in JSON"
  | memberOrBrace => "Expected property name or '\x7d' in JSON"
  | member => "Expected double-quoted property name in JSON"
  | colon => "Expected ':' after property name in JSON"
  | commaOrBrace => "Expected ',' or '\x7d' after property value in JSON"
  | commaOrBracket => "Expected ',' or ']' after array element in JSON"
  | trailing => "Unexpected non-whitespace character after JSON"
  | unterminated => "Unterminated string in JSON"
  | control => "Bad control character in string literal in JSON"
  | escape => "Bad escaped character in JSON"
  | unicodeEscape => "Bad Unicode escape in JSON"
  | minusAlone => "No number after minus sign in JSON"
  | fraction => "Unterminated fractional number in JSON"
  | exponent => "Exponent part is missing a number in JSON"

/-- A flaw, and what is left of the text from there. -/
structure Defect where
  flaw : Flaw
  rest : List Char
  deriving DecidableEq, Repr

namespace Defect

/-- The text before what is left of it. -/
def before (text rest : List Char) : List Char := text.take (text.length - rest.length)

/-- How many units of a text are quoted on each side. -/
def margin : Nat := 10

/-- The first units of a text. -/
def firstUnits (units : Nat) (cs : List Char) : List Char :=
  Source.firstUnits units (cs.map .whole)

/-- How many units a text takes. -/
def width (cs : List Char) : Nat := Source.width (cs.map .whole)

/-- A text in quotes; of a long one only what is near the place where `rest` begins. -/
def excerpt (text rest : List Char) : String :=
  if width text ≤ 2 * margin then "\"" ++ String.ofList text ++ "\""
  else
    let before := before text rest
    (if width before < margin then "\"" ++ String.ofList before
      else "...\"" ++ String.ofList (firstUnits margin before.reverse).reverse) ++
      (if width rest ≤ margin then String.ofList rest ++ "\""
      else String.ofList (firstUnits margin rest) ++ "\"...")

/-- A phrase with the place where `rest` begins. -/
def located (text rest : List Char) (phrase : String) : String :=
  let before := before text rest
  let place := Place.start.after (before.map .whole)
  s!"{phrase} at position {width before} (line {place.line} column {place.column})"

/-- Texts that stand for what is no data. -/
def strayWords : List String := ["NaN", "Infinity", "undefined", "[object Object]"]

/-- What is wrong with the character at the front of `rest`. -/
def unexpectedMessage (text rest : List Char) : String :=
  match rest with
  | [] => "Unexpected end of JSON input"
  | c :: _ =>
    if c.isDigit ∨ c = '-' then located text rest "Unexpected number in JSON"
    else if c = '"' then located text rest "Unexpected string in JSON"
    else if strayWords.contains (String.ofList text) then
      "\"" ++ String.ofList text ++ "\" is not valid JSON"
    else s!"Unexpected token '{c}', " ++ excerpt text rest ++ " is not valid JSON"

/-- The message of a defect of a text. -/
def message (text : String) (d : Defect) : String :=
  match d.flaw with
  | .unexpected => unexpectedMessage text.toList d.rest
  | flaw => located text.toList d.rest flaw.phrase

end Defect

end GraphClient.Json
