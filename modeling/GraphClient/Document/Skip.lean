import GraphClient.Document.Cursor

/-!
# Passing over tokens

Parts of a document that a schema does not record are skipped: directives, balanced groups
in brackets, lists of interfaces. After an issue, reading goes on at the next definition
(`Cursor.toDefinition`) or at the next member of the block (`Cursor.toMember`): brackets are
counted, and only a token outside of all brackets opened since then is taken for a start.
-/

namespace GraphClient

/-- The words that begin a definition. -/
inductive Keyword where
  | scalar | enum | type | input | interface | union | schema | directive | extend
  deriving DecidableEq, Repr

def Keyword.ofText? (text : String) : Option Keyword :=
  if text = "scalar" then some .scalar
  else if text = "enum" then some .enum
  else if text = "type" then some .type
  else if text = "input" then some .input
  else if text = "interface" then some .interface
  else if text = "union" then some .union
  else if text = "schema" then some .schema
  else if text = "directive" then some .directive
  else if text = "extend" then some .extend
  else none

namespace Token

def keyword? (t : Token) : Option Keyword := t.name?.bind Keyword.ofText?

def isName (t : Token) : Bool := t.name?.isSome

def isString (t : Token) : Bool := t.string?.isSome

/-- The depth of brackets behind a token, never below zero. -/
def nest (t : Token) (depth : Nat) : Nat :=
  if t.is .braceL || t.is .bracketL || t.is .parenL then depth + 1
  else if t.is .braceR || t.is .bracketR || t.is .parenR then depth - 1
  else depth

end Token

/-- The tokens behind a description. -/
def afterDescription : List Token → List Token
  | [] => []
  | t :: ts => if t.isString then ts else t :: ts

/-- Whether a definition starts here: a keyword and then a name, an at sign or a brace. -/
def startsDefinition (ts : List Token) : Bool :=
  match afterDescription ts with
  | keyword :: next :: _ =>
    keyword.keyword?.isSome && (next.isName || next.is .atSign || next.is .braceL)
  | _ => false

/-- Whether a token is behind the name of a definition rather than of a member. -/
def followsDefinitionName : Option Token → Bool
  | none => true
  | some t => t.is .braceL || t.is .equals || t.is .atSign || t.name? == some "implements"

/-- Whether a definition interrupts a block here: it is the first on its line, with its name on
the line of its keyword, and what follows the name belongs to a definition. -/
def interruptsBlock (c : Cursor) : Bool :=
  match c.rest with
  | [] => false
  | first :: _ =>
    c.line < first.line &&
      match afterDescription c.rest with
      | keyword :: name :: after =>
        keyword.keyword?.isSome && name.isName && name.line == keyword.line &&
          followsDefinitionName after.head?
      | _ => false

namespace Cursor

/-- Goes on to the next definition outside of brackets. -/
def seekDefinition (depth line : Nat) : List Token → Cursor
  | [] => ⟨line, []⟩
  | t :: ts =>
    if depth = 0 ∧ startsDefinition (t :: ts) then ⟨line, t :: ts⟩
    else seekDefinition (t.nest depth) t.line ts

/-- The cursor at the next definition. -/
def toDefinition (c : Cursor) : Cursor := seekDefinition 0 c.line c.rest

/-- Goes on to a closing brace, or to a name or string behind the line `failed`. -/
def seekMember (failed depth line : Nat) : List Token → Cursor
  | [] => ⟨line, []⟩
  | t :: ts =>
    if depth = 0 ∧ (t.is .braceR ∨ failed < t.line ∧ (t.isName ∨ t.isString)) then ⟨line, t :: ts⟩
    else seekMember failed (t.nest depth) t.line ts

/-- The cursor at the next member of a block, or at its end, after an issue on a line. -/
def toMember (failed : Nat) (c : Cursor) : Cursor := seekMember failed 0 c.line c.rest

end Cursor

namespace Parse

/-- Reads up to the bracket that closes a group, with `depth` brackets open. -/
def leaveGroup (opening closing : Punctuator) (depth line : Nat) : List Token → Outcome Unit
  | [] => ⟨[], ⟨line, []⟩, .error ⟨none, .text closing.text⟩⟩
  | t :: ts =>
    if t.is opening then leaveGroup opening closing (depth + 1) t.line ts
    else if t.is closing then
      if depth ≤ 1 then ⟨[], ⟨t.line, ts⟩, .ok ()⟩
      else leaveGroup opening closing (depth - 1) t.line ts
    else leaveGroup opening closing depth t.line ts

/-- Skips a group in brackets, if one starts here. -/
def group (opening closing : Punctuator) : Parse Unit := fun c =>
  if nextIs opening c then leaveGroup opening closing 0 c.line c.rest else ⟨[], c, .ok ()⟩

def parens : Parse Unit := group .parenL .parenR

def braces : Parse Unit := group .braceL .braceR

/-- Skips directives with their arguments. -/
def directives : Parse Unit :=
  skipLoop (nextIs .atSign) do
    advance
    let _ ← name
    parens

/-- Skips names between bars, with a bar before the first if there is one. -/
def alternatives : Parse Unit := do
  let _ ← accept .pipe
  let _ ← name
  skipLoop (nextIs .pipe) do
    advance
    let _ ← name

/-- Whether a list of interfaces goes on: with an ampersand, or a name that starts no definition. -/
def continuesInterfaces (c : Cursor) : Bool :=
  nextIs .amp c || (c.rest.head?.any Token.isName && !startsDefinition c.rest)

/-- Skips the list of interfaces that a type implements. -/
def interfaces : Parse Unit := do
  if (← peekName) = some "implements" then
    advance
    let _ ← accept .amp
    let _ ← name
    skipLoop continuesInterfaces do
      let _ ← accept .amp
      let _ ← name

/-- Skips the definition of a directive behind its keyword. -/
def directiveDefinition : Parse Unit := do
  expect .atSign
  let _ ← name
  parens
  if (← peekName) = some "repeatable" then advance
  if (← peekName) = some "on" then
    advance
    alternatives
  else fail (.text "on")

end Parse

end GraphClient
