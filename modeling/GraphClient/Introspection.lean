import GraphClient.Json
import GraphClient.Schema
import GraphClient.Text.Units

/-!
# Introspection data

`Introspection.sdl` writes the `__schema` value of an introspection response as type
definitions. Types are sorted by kind and then by the units of their name, so the text does
not depend on their order (`sorted`). Data is taken as it comes: names of types that are
missing read `Unknown`, and types without a name, or of no known kind, are left out.
-/

namespace GraphClient.Introspection

/-- The kinds of types in the order in which they are written. -/
def kinds : List String := ["SCALAR", "ENUM", "INPUT_OBJECT", "INTERFACE", "OBJECT", "UNION"]

/-- The position of a kind in the order; unknown kinds come last. -/
def rank (kind : String) : Nat := kinds.idxOf kind

/-- A member that is a text, or the empty text. -/
def textOf (key : String) (j : Json) : String := (j.stringMember? key).getD ""

/-- The order of two types. -/
def typeLe (a b : Json) : Bool :=
  let ra := rank (textOf "kind" a)
  let rb := rank (textOf "kind" b)
  ra < rb || (ra == rb && Text.unitLe (textOf "name" a) (textOf "name" b))

/-- The text of a type reference. -/
def typeText (j : Json) : String :=
  if j.stringMember? "kind" = some "NON_NULL" then
    (match _h : j.member? "ofType" with
      | some inner => typeText inner
      | none => "Unknown") ++ "!"
  else if j.stringMember? "kind" = some "LIST" then
    "[" ++ (match _h : j.member? "ofType" with
      | some inner => typeText inner
      | none => "Unknown") ++ "]"
  else (j.stringMember? "name").getD "Unknown"
termination_by sizeOf j
decreasing_by all_goals exact Json.sizeOf_member?_lt _h

/-- The text of the type reference of an element. -/
def typeOf (j : Json) : String := ((j.member? "type").map typeText).getD "Unknown"

/-- A character inside quotes on one line. -/
def escapeChar (c : Char) : List Char :=
  if c = '\\' then ['\\', '\\'] else if c = '"' then ['\\', '"'] else [c]

def escape (s : String) : String := String.ofList (s.toList.flatMap escapeChar)

/-- A text between three quotes: a backslash before each three quotes of its own. -/
def escapeBlock : List Char → List Char
  | '"' :: '"' :: '"' :: cs => '\\' :: '"' :: '"' :: '"' :: escapeBlock cs
  | c :: cs => c :: escapeBlock cs
  | [] => []

/-- The description before an element: on the line of the element, or, if it has several lines
itself, on lines of its own. -/
def describe (indent : String) (j : Json) : String :=
  let text := textOf "description" j
  if text = "" then ""
  else if text.toList.contains '\n' then
    "\"\"\"" ++ String.ofList (escapeBlock text.toList) ++ "\"\"\"\n" ++ indent
  else "\"" ++ escape text ++ "\" "

def deprecation (j : Json) : String :=
  if j.isTrueMember "isDeprecated" then
    match j.stringMember? "deprecationReason" with
    | some reason => " @deprecated(reason: \"" ++ escape reason ++ "\")"
    | none => " @deprecated"
  else ""

def defaultClause (j : Json) : String :=
  let text := textOf "defaultValue" j
  if text = "" then "" else " = " ++ text

/-- An argument or an input field. -/
def inputValue (j : Json) : String := textOf "name" j ++ ": " ++ typeOf j ++ defaultClause j

def interfaces (j : Json) : String :=
  let names := (j.objectsMember "interfaces").filterMap (·.stringMember? "name")
  if names.isEmpty then "" else " implements " ++ " & ".intercalate names

def signature (j : Json) : String :=
  let args := j.objectsMember "args"
  if args.isEmpty then textOf "name" j
  else textOf "name" j ++ "(" ++ ", ".intercalate (args.map inputValue) ++ ")"

def field (j : Json) : String := signature j ++ ": " ++ typeOf j ++ deprecation j

def enumValue (j : Json) : String := textOf "name" j ++ deprecation j

/-- The members of a block, each on its line with its description before it. -/
def block (write : Json → String) (members : List Json) : String :=
  " \x7b\n" ++ String.join (members.map fun m => "  " ++ describe "  " m ++ write m ++ "\n") ++
    "\x7d\n\n"

/-- The definition of a type, or nothing. -/
def typeDefinition (j : Json) : String :=
  let name := textOf "name" j
  let kind := textOf "kind" j
  let description := describe "" j
  if name = "" then ""
  else if kind = "SCALAR" then
    if Schema.isBuiltinScalar name then "" else description ++ "scalar " ++ name ++ "\n\n"
  else if kind = "ENUM" then
    description ++ "enum " ++ name ++ block enumValue (j.objectsMember "enumValues")
  else if kind = "INPUT_OBJECT" then
    description ++ "input " ++ name ++ block inputValue (j.objectsMember "inputFields")
  else if kind = "OBJECT" then
    description ++ "type " ++ name ++ interfaces j ++ block field (j.objectsMember "fields")
  else if kind = "INTERFACE" then
    description ++ "interface " ++ name ++ interfaces j ++ block field (j.objectsMember "fields")
  else if kind = "UNION" then
    let members := (j.objectsMember "possibleTypes").filterMap (·.stringMember? "name")
    description ++ "union " ++ name ++ " = " ++ " | ".intercalate members ++ "\n\n"
  else ""

/-- Whether a type belongs to introspection itself. -/
def isReserved (j : Json) : Bool := "__".toList.isPrefixOf (textOf "name" j).toList

/-- The types of a schema in their order. -/
def sorted (schema : Json) : List Json :=
  ((schema.objectsMember "types").filter (!isReserved ·)).mergeSort typeLe

/-- The definitions of the types of a schema. -/
def sdl (schema : Json) : String := String.join ((sorted schema).map typeDefinition)

/-- The `__schema` object in the body of a response. -/
def schemaOf? (body : Json) : Option Json :=
  (((body.member? "data").bind (·.member? "__schema"))).filter Json.isObject

end GraphClient.Introspection
