import GraphClient.Token

/-!
# Warnings

A definition or member that cannot be read raises an `Issue`: what was found and what was
expected instead. Reading goes on behind it, and the issue becomes a `Warning`. So do the
faults of tokenising, a field without a type and a block without its closing brace.
-/

namespace GraphClient

/-- What a reader expects. -/
inductive Expectation where
  | definition
  | name
  | defaultValue
  | value
  | text (s : String)
  deriving DecidableEq, Repr

def Expectation.message : Expectation → String
  | definition => "a definition"
  | name => "a name"
  | defaultValue => "a default value"
  | value => "a value"
  | text s => "\"" ++ s ++ "\""

/-- A token, or the end of the document, where something else is expected. -/
structure Issue where
  found : Option Occurrence
  expected : Expectation
  deriving DecidableEq, Repr

/-- A kind of token as a message shows it. -/
def TokenKind.shown : TokenKind → String
  | .name text => "name \"" ++ text ++ "\""
  | kind => "\"" ++ kind.label ++ "\""

namespace Issue

def message (i : Issue) : String :=
  match i.found with
  | none => s!"Unexpected end of document, expected {i.expected.message}"
  | some t =>
    s!"Unexpected {t.kind.shown} at line {t.place.line}, column {t.place.column}, expected " ++
      i.expected.message

/-- The line of the token found, or zero at the end of the document. -/
def line (i : Issue) : Nat := (i.found.map (·.place.line)).getD 0

end Issue

/-- A problem met while reading a document. -/
inductive Warning where
  | lexical (fault : Fault)
  | malformed (owner : Option String) (issue : Issue)
  | untyped (element : String)
  | unclosed (owner : String)
  deriving DecidableEq, Repr

def Warning.message : Warning → String
  | lexical fault => fault.message
  | malformed none issue => issue.message
  | malformed (some owner) issue => owner ++ ": " ++ issue.message
  | untyped element => element ++ " has no type annotation; assuming String"
  | unclosed owner => owner ++ ": expected \"\x7d\" to close the block"

end GraphClient
