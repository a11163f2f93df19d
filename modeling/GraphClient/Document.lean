import GraphClient.Document.Skip
import GraphClient.Schema
import GraphClient.Token.Lexer

/-!
# Documents

A `Document` is what can be read of a text: its definitions and the warnings. A definition
that fails leaves nothing behind, except that the name of a failing interface or union is
known; reading goes on at the next definition. A member that fails is left out of its block,
and reading goes on at the next member. A definition that interrupts a block closes it.
-/

namespace GraphClient

/-- The text of tokens that follow each other, without the gap before the first. -/
def spanText : List Token → String
  | [] => ""
  | t :: ts => Source.toString (t.lexeme ++ ts.flatMap fun u => u.gap ++ u.lexeme)

namespace Parse

/-- Marks a type that is never null. -/
def marked (t : TypeRef) : Parse TypeRef := do
  if ← accept .bang then return .nonNull t else return t

/-- Reads a type from tokens behind a line. -/
def typeRefFrom (line : Nat) : List Token → Outcome TypeRef
  | [] => fail .name ⟨line, []⟩
  | t :: ts =>
    if t.is .bracketL then
      (typeRefFrom t.line ts).andThen fun element => do
        expect .bracketR
        marked (.list element)
    else
      match t.name? with
      | some text => marked (.named text) ⟨t.line, ts⟩
      | none => fail .name ⟨line, t :: ts⟩

def typeRef : Parse TypeRef := fun c => typeRefFrom c.line c.rest

/-- Reads a colon and a type; an element without them is a string. -/
def typeAnnotation (element : String) : Parse TypeRef := do
  if ← accept .colon then typeRef
  else
    warn (.untyped element)
    return .named "String"

/-- Skips a value. -/
def anyValue : Parse Unit := do
  match ← peek with
  | none => fail .value
  | some t =>
    match t.kind with
    | .punctuator .bracketL => group .bracketL .bracketR
    | .punctuator .braceL => braces
    | .punctuator .dollar =>
      advance
      let _ ← name
    | .punctuator _ => fail .value
    | _ => advance

/-- Reads an equals sign and a value, which is kept as its text. -/
def defaultValue : Parse (Option String) := do
  if ← accept .equals then
    let before ← tokens
    if before.isEmpty then fail .defaultValue
    else
      anyValue
      let after ← tokens
      return some (spanText (before.take (before.length - after.length)))
  else return none

/-- Reads an argument or an input field; `element` is what a warning calls it. -/
def inputValue (element : String → String) : Parse InputValueDef := do
  let description ← description
  let name ← name
  let type ← typeAnnotation (element name)
  let defaultValue ← defaultValue
  directives
  return ⟨name, description, type, defaultValue⟩

/-- Whether a list in brackets goes on. -/
def continuesUntil (closing : Punctuator) (c : Cursor) : Bool :=
  !c.rest.isEmpty && !nextIs closing c

/-- Reads arguments in parentheses, if there are any. -/
def arguments (owner : String) : Parse (List InputValueDef) := do
  if ← accept .parenL then
    let args ← loop (continuesUntil .parenR) do
      return some (← inputValue fun name => owner ++ "(" ++ name ++ ")")
    expect .parenR
    return args
  else return []

def field (owner : String) : Parse FieldDef := do
  let description ← description
  let name ← name
  let arguments ← arguments (owner ++ "." ++ name)
  let type ← typeAnnotation (owner ++ "." ++ name)
  directives
  return ⟨name, description, type, arguments⟩

def inputField (owner : String) : Parse InputValueDef :=
  inputValue fun name => owner ++ "." ++ name

def enumValue : Parse EnumValueDef := do
  let description ← description
  let name ← name
  directives
  return ⟨name, description⟩

/-- Reads a member of a block; after an issue it goes on at the next member. -/
def member {α : Type} (owner : String) (p : Parse α) : Parse (Option α) := fun c =>
  match p c with
  | ⟨warnings, c, .ok a⟩ => ⟨warnings, c, .ok (some a)⟩
  | ⟨warnings, c, .error issue⟩ =>
    ⟨warnings ++ [.malformed (some owner) issue], c.toMember issue.line, .ok none⟩

/-- Whether another member of a block may start here. -/
def continuesBlock (c : Cursor) : Bool := continuesUntil .braceR c && !interruptsBlock c

/-- Reads the members of a block in braces, if there is one. -/
def block {α : Type} (owner : String) (p : Parse α) : Parse (List α) := do
  if ← accept .braceL then
    let members ← loop continuesBlock (member owner p)
    if !(← accept .braceR) then warn (.unclosed owner)
    return members
  else return []

/-- Reads a definition: what a schema records of it, and the issue that cut it short. -/
def definition : Parse (Option Definition × Option Issue) := do
  let description ← description
  match (← peek).bind Token.keyword? with
  | none => fail .definition
  | some keyword =>
    advance
    match keyword with
    | .scalar =>
      let name ← name
      directives
      return (some (.scalar ⟨name, description⟩), none)
    | .enum =>
      let name ← name
      directives
      let values ← block name enumValue
      return (some (.enum ⟨name, description, values⟩), none)
    | .type =>
      let name ← name
      interfaces
      directives
      let fields ← block name (field name)
      return (some (.object ⟨name, description, fields⟩), none)
    | .input =>
      let name ← name
      directives
      let fields ← block name (inputField name)
      return (some (.input ⟨name, description, fields⟩), none)
    | .interface =>
      let name ← name
      let issue ← tentative do
        interfaces
        directives
        braces
      return (some (.interface name), issue)
    | .union =>
      let name ← name
      let issue ← tentative do
        directives
        if ← accept .equals then alternatives
      return (some (.union name), issue)
    | .schema =>
      directives
      braces
      return (none, none)
    | .directive =>
      directiveDefinition
      return (none, none)
    | .extend =>
      advance
      move Cursor.toDefinition
      return (none, none)

/-- Goes on at the next definition after an issue, behind at least one of `count` tokens. -/
def recover (count : Nat) (issue : Issue) : Parse Unit := do
  warn (.malformed none issue)
  move fun c => (if c.rest.length = count then c.advance else c).toDefinition

/-- Reads a definition and goes on at the next one if it fails. -/
def entry : Parse (Option Definition) := fun c =>
  match definition c with
  | ⟨warnings, c', .ok (d, none)⟩ => ⟨warnings, c', .ok d⟩
  | ⟨warnings, c', .ok (d, some issue)⟩ =>
    ((recover c.rest.length issue c').andThen fun _ => pure d).withEarlier warnings
  | ⟨warnings, c', .error issue⟩ =>
    ((recover c.rest.length issue c').andThen fun _ => pure none).withEarlier warnings

/-- Reads definitions up to the end. -/
def definitions : Parse (List Definition) := loop (fun c => !c.rest.isEmpty) entry

end Parse

/-- What can be read of a text. -/
structure Document where
  definitions : List Definition
  warnings : List Warning
  deriving DecidableEq, Repr

namespace Document

/-- The document of a list of tokens. -/
def ofTokens (ts : List Token) : Document :=
  match Parse.definitions ⟨0, ts⟩ with
  | ⟨warnings, _, .ok ds⟩ => ⟨ds, warnings⟩
  | ⟨warnings, _, .error _⟩ => ⟨[], warnings⟩

/-- The document of a text; the faults of its tokens come first. -/
def ofString (s : String) : Document :=
  let t := tokenize (Source.ofString s)
  let d := ofTokens t.tokens
  ⟨d.definitions, t.faults.map .lexical ++ d.warnings⟩

def schema (d : Document) : Schema := Schema.ofDefinitions d.definitions

end Document

end GraphClient
