import GraphClient.Record
import GraphClient.TypeRef

/-!
# Schemas

A document is a list of definitions; `Schema.ofDefinitions` collects them. Objects, enums,
inputs and scalars keep the order of the document. The roots `Query` and `Mutation` are not
objects of the schema: the last definition of a root gives its fields. `kinds` says of each
defined name, and of the built-in scalars, what it stands for; the last definition decides.
Interfaces and unions are known by their kind alone.
-/

namespace GraphClient

/-- What a type name stands for. -/
inductive TypeKind where
  | scalar
  | enum
  | object
  | inputObject
  | interface
  | union
  deriving DecidableEq, Repr

/-- Whether values of the kind have fields to select. -/
def TypeKind.isComposite : TypeKind → Bool
  | object | interface | union => true
  | scalar | enum | inputObject => false

/-- An argument of a field, or a field of an input. -/
structure InputValueDef where
  name : String
  description : Option String
  type : TypeRef
  defaultValue : Option String
  deriving DecidableEq, Repr

/-- Whether a value has to be given. -/
def InputValueDef.isRequired (v : InputValueDef) : Bool :=
  v.type.isNonNull && v.defaultValue.isNone

structure FieldDef where
  name : String
  description : Option String
  type : TypeRef
  arguments : List InputValueDef
  deriving DecidableEq, Repr

structure EnumValueDef where
  name : String
  description : Option String
  deriving DecidableEq, Repr

structure ScalarDef where
  name : String
  description : Option String
  deriving DecidableEq, Repr

structure EnumDef where
  name : String
  description : Option String
  values : List EnumValueDef
  deriving DecidableEq, Repr

structure ObjectDef where
  name : String
  description : Option String
  fields : List FieldDef
  deriving DecidableEq, Repr

structure InputDef where
  name : String
  description : Option String
  fields : List InputValueDef
  deriving DecidableEq, Repr

/-- A definition that a schema records. -/
inductive Definition where
  | scalar (definition : ScalarDef)
  | enum (definition : EnumDef)
  | object (definition : ObjectDef)
  | input (definition : InputDef)
  | interface (name : String)
  | union (name : String)
  deriving DecidableEq, Repr

namespace Definition

def name : Definition → String
  | scalar d => d.name
  | enum d => d.name
  | object d => d.name
  | input d => d.name
  | interface n => n
  | union n => n

def kind : Definition → TypeKind
  | scalar _ => .scalar
  | enum _ => .enum
  | object _ => .object
  | input _ => .inputObject
  | interface _ => .interface
  | union _ => .union

end Definition

/-- The types and root fields that a document defines. -/
structure Schema where
  scalars : List ScalarDef
  enums : List EnumDef
  objects : List ObjectDef
  inputs : List InputDef
  queryFields : List FieldDef
  mutationFields : List FieldDef
  kinds : Record TypeKind

namespace Schema

def builtinScalars : List String := ["String", "Int", "Float", "Boolean", "ID"]

def isBuiltinScalar (name : String) : Bool := builtinScalars.contains name

def queryRoot : String := "Query"

def mutationRoot : String := "Mutation"

/-- The schema of an empty document. -/
def empty : Schema :=
  ⟨[], [], [], [], [], [], Record.ofPairs (builtinScalars.map fun name => (name, .scalar))⟩

/-- The lists of a schema after one more definition. -/
def record (s : Schema) : Definition → Schema
  | .scalar d => { s with scalars := s.scalars ++ [d] }
  | .enum d => { s with enums := s.enums ++ [d] }
  | .object d =>
    if d.name = queryRoot then { s with queryFields := d.fields }
    else if d.name = mutationRoot then { s with mutationFields := d.fields }
    else { s with objects := s.objects ++ [d] }
  | .input d => { s with inputs := s.inputs ++ [d] }
  | .interface _ => s
  | .union _ => s

/-- A schema after one more definition. -/
def add (s : Schema) (d : Definition) : Schema :=
  { s.record d with kinds := s.kinds.insert d.name d.kind }

/-- The schema of a list of definitions. -/
def ofDefinitions (ds : List Definition) : Schema := ds.foldl add empty

/-- What a name stands for. -/
def kind? (s : Schema) (name : String) : Option TypeKind := s.kinds.get? name

/-- Whether a name stands for an object, an interface or a union. -/
def isComposite (s : Schema) (name : String) : Bool := (s.kind? name).any (·.isComposite)

/-- The first object of a name; the roots are none. -/
def object? (s : Schema) (name : String) : Option ObjectDef := s.objects.find? (·.name == name)

theorem ofDefinitions_concat (ds : List Definition) (d : Definition) :
    ofDefinitions (ds ++ [d]) = (ofDefinitions ds).add d := by
  simp [ofDefinitions]

theorem kind?_add (s : Schema) (d : Definition) (name : String) :
    (s.add d).kind? name = if name = d.name then some d.kind else s.kind? name :=
  Record.get?_insert s.kinds d.name name d.kind

end Schema

end GraphClient
