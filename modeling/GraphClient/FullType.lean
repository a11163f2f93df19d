import GraphClient.Descriptor
import GraphClient.Schema

/-!
# Full types

The full type of an object holds the descriptor of each of its fields. Every field is
optional, because a response has only the selected fields; whether a type may be null
matters for the elements of lists alone. References to composite types are boxed. Scalars
in the list of timestamps become timestamps, and `ID` is a string.
-/

namespace GraphClient

/-- The shape of an object that projections are checked against. -/
structure FullType where
  typeName : String
  fields : Record Descriptor

/-- The key that no object holds as a field. -/
def reservedKey : String := "__proto__"

namespace Schema

/-- The scalars that are timestamps if nothing else is said. -/
def defaultTimestamps : List String := ["DateTime"]

/-- The descriptor of a type name. -/
def leaf (timestamps : List String) (name : String) : Descriptor :=
  if name = "ID" then .string
  else if timestamps.contains name then .timestamp
  else .named name

/-- The descriptor of a type, taken as never null itself. -/
def presentDescriptor (s : Schema) (timestamps : List String) : TypeRef → Descriptor
  | .nonNull inner => s.presentDescriptor timestamps inner
  | .list element =>
    let inner := s.presentDescriptor timestamps element
    .list (if element.isNonNull then inner else .optional inner)
  | .named name =>
    if s.isComposite name then .boxed (leaf timestamps name) else leaf timestamps name

/-- The descriptor of a field of a type. -/
def descriptor (s : Schema) (timestamps : List String) (type : TypeRef) : Descriptor :=
  .optional (s.presentDescriptor timestamps type.nullable)

/-- The fields of an object with their descriptors. -/
def fullFields (s : Schema) (timestamps : List String) (fields : List FieldDef) :
    Record Descriptor :=
  Record.ofPairs ((fields.filter (·.name != reservedKey)).map fun f =>
    (f.name, s.descriptor timestamps f.type))

/-- The full type of an object of the schema. -/
def fullType? (s : Schema) (timestamps : List String) (name : String) : Option FullType :=
  (s.object? name).map fun o => ⟨o.name, s.fullFields timestamps o.fields⟩

end Schema

end GraphClient
