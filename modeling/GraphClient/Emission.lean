import GraphClient.FullType
import GraphClient.Naming

/-!
# The generated module

`Schema.emit` writes a TypeScript module for a schema: the values of each enum, the full
type of each object, a projection that selects all its scalar and enum fields
(`selectable`), and tables of the operations. Everything keeps the order of the schema. A
field whose name is not its own wire name has no key that selects it; it is left out of the
projection with a warning. Descriptions become comments (`docComment`).
-/

namespace GraphClient

/-- The module that the helpers are imported from if no other is named. -/
def defaultRuntimeModule : String := "graphql-lean-codegen"

/-- What a module is generated with. -/
structure EmitOptions where
  timestamps : List String := Schema.defaultTimestamps
  runtimeModule : String := defaultRuntimeModule
  deriving DecidableEq, Repr

/-- A field of an object that no key of a projection selects. -/
structure LeftOut where
  object : String
  field : String
  deriving DecidableEq, Repr

def LeftOut.message (w : LeftOut) : String :=
  w.object ++ "." ++ w.field ++ ": no projection key selects this field (it would be sent as \"" ++
    Naming.wireName w.field ++ "\"); left out of the " ++ w.object ++ " projection"

/-- The text of a generated module, and the fields left out of its projections. -/
structure Emission where
  source : String
  leftOut : List LeftOut
  deriving DecidableEq, Repr

namespace Comment

/-- The text with a backslash in each mark that would end the comment. -/
def sealed : List Char → List Char
  | '*' :: '/' :: cs => '*' :: '\\' :: '/' :: sealed cs
  | c :: cs => c :: sealed cs
  | [] => []

/-- A line inside a comment of several lines. -/
def inner (indent : String) (line : List Char) : String :=
  if line.isEmpty then indent ++ " *" else indent ++ " * " ++ String.ofList line

end Comment

/-- The lines of the comment for a description. -/
def docComment (indent : String) : Option String → List String
  | none => []
  | some text =>
    if text = "" then []
    else
      match Text.parts '\n' (Comment.sealed text.toList) with
      | [line] => [indent ++ "/** " ++ String.ofList line ++ " */"]
      | lines => [indent ++ "/**"] ++ lines.map (Comment.inner indent) ++ [indent ++ " */"]

namespace Schema

/-- Whether a field needs no selection of its own and no argument has to be given. -/
def isLeafField (s : Schema) (f : FieldDef) : Bool :=
  !s.isComposite f.type.baseName && !f.arguments.any (·.isRequired)

/-- Whether a name is its own wire name. -/
def isWireName (name : String) : Bool := Naming.wireName name == name

/-- The fields that the projection of an object selects. -/
def selectable (s : Schema) (o : ObjectDef) : List FieldDef :=
  o.fields.filter fun f => s.isLeafField f && isWireName f.name

/-- The fields of an object that no key selects. -/
def leftOut (s : Schema) (o : ObjectDef) : List LeftOut :=
  (o.fields.filter fun f => s.isLeafField f && !isWireName f.name).map fun f => ⟨o.name, f.name⟩

/-- The objects that have a projection, with the fields it selects. -/
def projected (s : Schema) : List (ObjectDef × List FieldDef) :=
  (s.objects.map fun o => (o, s.selectable o)).filter fun p => !p.2.isEmpty

/-- The helpers that a module imports, sorted. -/
def helpers (s : Schema) : List String :=
  if s.objects.isEmpty then []
  else if s.projected.isEmpty then ["fullType", "t"]
  else ["fullType", "plain", "projection", "t"]

def importLines (s : Schema) (options : EmitOptions) : List String :=
  if s.helpers.isEmpty then []
  else
    ["import \x7b " ++ ", ".intercalate s.helpers ++ " \x7d from " ++
      Text.quote options.runtimeModule ++ ";", ""]

def enumLines (e : EnumDef) : List String :=
  let binding := Naming.escape e.name
  let values := ", ".intercalate (e.values.map fun v => Text.quote v.name)
  docComment "" e.description ++
    ["export const " ++ binding ++ "Values = [" ++ values ++ "] as const;",
      "export type " ++ binding ++ " = (typeof " ++ binding ++ "Values)[number];", ""]

/-- The line of a field in a full type. -/
def fullFieldLine (s : Schema) (timestamps : List String) (f : FieldDef) : String :=
  "  " ++ f.name ++ ": " ++ (s.descriptor timestamps f.type).render ++ ","

def fullTypeLines (s : Schema) (timestamps : List String) (o : ObjectDef) : List String :=
  docComment "" o.description ++
    ["export const " ++ Naming.escape (o.name ++ "Full") ++ " = fullType(" ++ Text.quote o.name ++
      ", \x7b"] ++
    o.fields.flatMap (fun f => docComment "  " f.description ++ [s.fullFieldLine timestamps f]) ++
    ["\x7d);"]

/-- The line of a field in a projection. -/
def projectionFieldLine (s : Schema) (timestamps : List String) (f : FieldDef) : String :=
  "    " ++ f.name ++ ": plain(" ++ (s.descriptor timestamps f.type).render ++ "),"

def projectionLines (s : Schema) (timestamps : List String) (o : ObjectDef)
    (fields : List FieldDef) : List String :=
  ["export const " ++ Naming.escape o.name ++ " = projection(\x7b",
    "  name: " ++ Text.quote o.name ++ ",",
    "  fields: \x7b"] ++
    fields.map (s.projectionFieldLine timestamps) ++
    ["  \x7d,", "\x7d);"]

def argumentEntry (a : InputValueDef) : String :=
  "\x7b name: " ++ Text.quote a.name ++ ", type: " ++ Text.quote a.type.render ++ " \x7d"

def operationLine (f : FieldDef) : String :=
  "  \x7b name: " ++ Text.quote f.name ++ ", arguments: [" ++
    ", ".intercalate (f.arguments.map argumentEntry) ++ "], returnType: " ++
    Text.quote f.type.render ++ " \x7d,"

def operationLines (binding : String) (fields : List FieldDef) : List String :=
  if fields.isEmpty then ["export const " ++ binding ++ " = [] as const;"]
  else ["export const " ++ binding ++ " = ["] ++ fields.map operationLine ++ ["] as const;"]

/-- A section with its title, or nothing if it is empty. -/
def sectionLines (title : String) (blocks : List (List String)) : List String :=
  if blocks.isEmpty then [] else ["// === " ++ title ++ " ===", ""] ++ blocks.flatten

/-- The lines of the generated module. -/
def moduleLines (s : Schema) (options : EmitOptions) : List String :=
  ["// Generated by graphql-lean-codegen. Do not edit.", ""] ++
    s.importLines options ++
    sectionLines "Enums" (s.enums.map enumLines) ++
    sectionLines "Full types"
      (s.objects.map fun o => s.fullTypeLines options.timestamps o ++ [""]) ++
    sectionLines "Projections (all scalar and enum fields)"
      (s.projected.map fun p => s.projectionLines options.timestamps p.1 p.2 ++ [""]) ++
    ["// === Operations ===", ""] ++
    operationLines "queryOperations" s.queryFields ++ [""] ++
    operationLines "mutationOperations" s.mutationFields

/-- The generated module of a schema. -/
def emit (s : Schema) (options : EmitOptions) : Emission :=
  ⟨"\n".intercalate (s.moduleLines options) ++ "\n", s.objects.flatMap s.leftOut⟩

end Schema

end GraphClient
