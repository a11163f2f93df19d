import GraphClient.Naming
import GraphClient.Token.Quotation

/-!
# Tokenising

`lex` splits a text into tokens up to the first fault. `tokenize` blanks the unit at a
fault, if it shows something, and begins again; it ends because each round leaves one
visible unit less. Every fault is kept, in the order of the rounds.
-/

namespace GraphClient

/-- What stands at the front of a text, its length given by the cells after the first. -/
inductive Reading where
  | token (kind : TokenKind) (further : Nat)
  | ignored (further : Nat)
  | fault (cause : FaultCause) (passed : Nat)
  deriving DecidableEq, Repr

/-- The punctuator of one character. -/
def punctuator? : Char → Option Punctuator
  | '!' => some .bang
  | '$' => some .dollar
  | '&' => some .amp
  | '(' => some .parenL
  | ')' => some .parenR
  | ':' => some .colon
  | '=' => some .equals
  | '@' => some .atSign
  | '[' => some .bracketL
  | ']' => some .bracketR
  | '\x7b' => some .braceL
  | '|' => some .pipe
  | '\x7d' => some .braceR
  | _ => none

/-- A single character that is ignored between tokens. -/
def isIgnored (c : Char) : Bool :=
  c == '\ufeff' || c == '\t' || c == ' ' || c == ',' || c == '\n'

def startsNumber (c : Char) : Bool := c.isDigit || c == '-'

/-- Reads the string or block string behind a quote. -/
def readQuoted : Source → Reading
  | .whole '"' :: .whole '"' :: rest =>
    match readBlockString 3 rest with
    | .ok (text, n) => .token (.blockString (String.ofList (Block.value text))) (n - 1)
    | .error m => .fault m.cause m.passed
  | rest =>
    match readString 1 rest with
    | .ok (value, n) => .token (.string (String.ofList value)) (n - 1)
    | .error m => .fault m.cause m.passed

/-- Reads what stands at the front of a text that starts with a character. -/
def readFrom (c : Char) (rest : Source) : Reading :=
  if isIgnored c then .ignored 0
  else if c = '\r' then .ignored (if rest.head? = some (.whole '\n') then 1 else 0)
  else if c = '#' then
    .ignored (rest.takeWhile (Cell.satisfies (!isLineBreak ·))).length
  else if c = '.' then
    if rest.take 2 = [.whole '.', .whole '.'] then .token (.punctuator .spread) 2
    else .fault (.unexpected (.whole c)) 0
  else if c = '"' then readQuoted rest
  else if startsNumber c then
    match readNumber (.whole c :: rest) with
    | .ok (kind, n) => .token kind (n - 1)
    | .error m => .fault m.cause m.passed
  else if isNameStart c then
    let tail := rest.takeWhile (Cell.satisfies isNameContinue)
    .token (.name (Source.toString (.whole c :: tail))) tail.length
  else
    match punctuator? c with
    | some p => .token (.punctuator p) 0
    | none => .fault (.unexpected (.whole c)) 0

def read : Cell → Source → Reading
  | .whole c, rest => readFrom c rest
  | .half c, _ => .fault (.unexpected (.half c)) 0

/-- The tokens of a text up to its first fault. -/
structure Lexing where
  tokens : List Token
  fault : Option Fault
  deriving DecidableEq, Repr

/-- Tokenises what follows an ignored gap of a text; `position` and `place` are those of the
front. -/
def lexFrom (gap : Source) (position : Nat) (place : Place) (cells : Source) : Lexing :=
  match cells with
  | [] => ⟨[], none⟩
  | c :: rest =>
    match read c rest with
    | .fault cause passed =>
      let before := (c :: rest).take passed
      ⟨[], some ⟨cause, position + Source.width before, place.after before⟩⟩
    | .ignored n =>
      let text := c :: rest.take n
      lexFrom (gap ++ text) (position + Source.width text) (place.after text) (rest.drop n)
    | .token kind n =>
      let lexeme := c :: rest.take n
      let later := lexFrom [] (position + Source.width lexeme) (place.after lexeme) (rest.drop n)
      ⟨⟨⟨kind, place⟩, gap, lexeme⟩ :: later.tokens, later.fault⟩
termination_by cells.length
decreasing_by all_goals simp only [List.length_drop, List.length_cons]; omega

/-- The tokens of a text up to its first fault. -/
def lex (cells : Source) : Lexing := lexFrom [] 0 Place.start cells

/-- A text after blanking, its tokens, and the faults in the order in which they were met. -/
structure Tokenized where
  text : Source
  tokens : List Token
  faults : List Fault
  deriving DecidableEq, Repr

/-- Tokenises a text, blanking the visible units at which it has faults. -/
def tokenize (cells : Source) : Tokenized :=
  match (lex cells).fault with
  | none => ⟨cells, (lex cells).tokens, []⟩
  | some fault =>
    match _h : cells.cellAt? fault.position with
    | none => ⟨cells, (lex cells).tokens, [fault]⟩
    | some c =>
      if c.isVisible then
        let later := tokenize (cells.blank fault.position)
        ⟨later.text, later.tokens, fault :: later.faults⟩
      else ⟨cells, (lex cells).tokens, [fault]⟩
termination_by cells.visible
decreasing_by
  rename_i hc
  have := Source.visible_blank _h hc
  omega

/-- Blanking keeps the width of the text. -/
theorem width_tokenize (cells : Source) : (tokenize cells).text.width = cells.width := by
  fun_induction tokenize cells with
  | case1 | case2 | case4 => rfl
  | case3 cells fault _ _ _ _ later ih => rw [← Source.width_blank cells fault.position]; exact ih

/-- The tokens are those of the blanked text. -/
theorem tokens_tokenize (cells : Source) :
    (tokenize cells).tokens = (lex (tokenize cells).text).tokens := by
  fun_induction tokenize cells with
  | case1 | case2 | case4 => rfl
  | case3 _ _ _ _ _ _ later ih => exact ih

end GraphClient
