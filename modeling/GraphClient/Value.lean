import GraphClient.Double.Layout
import GraphClient.Record
import GraphClient.Text.Quoted

/-!
# Argument values

A `Value` is what an argument of an operation is given: `render` writes it as a GraphQL
literal. Only finite numbers have one; of several others the first is reported.
-/

namespace GraphClient

inductive Value where
  | null
  | bool (value : Bool)
  | string (value : String)
  | number (value : Double)
  | enum (name : String)
  | list (items : List Value)
  | object (fields : List (String × Value))
  deriving Repr, Inhabited

/-- A number that has no literal. -/
structure NotFinite where
  number : Double
  deriving DecidableEq, Repr

def NotFinite.message (e : NotFinite) : String :=
  "Cannot render " ++ e.number.text ++ " as a GraphQL literal"

namespace Value

/-- The object of pairs, with its fields in the order of a record. -/
def ofPairs (pairs : List (String × Value)) : Value := object (Record.ofPairs pairs).entries

mutual

/-- The literal of a value. -/
def render : Value → Except NotFinite String
  | null => .ok "null"
  | bool true => .ok "true"
  | bool false => .ok "false"
  | string value => .ok (Text.quote value)
  | number value => if value.isFinite then .ok value.text else .error ⟨value⟩
  | enum name => .ok name
  | list items => do
    let texts ← renderItems items
    return "[" ++ ", ".intercalate texts ++ "]"
  | object fields => do
    let texts ← renderFields fields
    return "\x7b" ++ ", ".intercalate texts ++ "\x7d"

def renderItems : List Value → Except NotFinite (List String)
  | [] => .ok []
  | v :: vs => do
    let text ← render v
    let texts ← renderItems vs
    return text :: texts

def renderFields : List (String × Value) → Except NotFinite (List String)
  | [] => .ok []
  | (key, v) :: rest => do
    let text ← render v
    let texts ← renderFields rest
    return (key ++ ": " ++ text) :: texts

end

end Value

end GraphClient
