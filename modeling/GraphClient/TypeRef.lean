/-!
# Type references

A `TypeRef` is the type of a field or argument as a schema writes it, with `render` as its
text: `[User!]!` is a list that is never null of users that are never null.
-/

namespace GraphClient

/-- A type as a schema refers to it. -/
inductive TypeRef where
  | named (name : String)
  | list (element : TypeRef)
  | nonNull (inner : TypeRef)
  deriving DecidableEq, Repr, Inhabited

namespace TypeRef

/-- The type without the mark that it is never null. -/
def nullable : TypeRef → TypeRef
  | nonNull inner => inner
  | t => t

def isNonNull : TypeRef → Bool
  | nonNull _ => true
  | _ => false

/-- The name at the leaf. -/
def baseName : TypeRef → String
  | named name => name
  | list element => element.baseName
  | nonNull inner => inner.baseName

/-- The text of a type reference. -/
def render : TypeRef → String
  | named name => name
  | list element => "[" ++ element.render ++ "]"
  | nonNull inner => inner.render ++ "!"

end TypeRef

end GraphClient
