import GraphClient.Text.Quoted

/-!
# Type descriptors

A `Descriptor` names the host type of a field: a leaf wrapped in `optional`, `boxed` (a
reference to a composite type) and `list`. `narrows full projected` decides whether a
projection may declare a field of type `full` as `projected`: wrappers may be kept or
dropped but not added, and a timestamp may be read as a string. `describe` is the form used
in diagnostics, `render` the expression that builds a descriptor in a generated module.
-/

namespace GraphClient

/-- The host type of a field. -/
inductive Descriptor where
  | named (name : String)
  | optional (inner : Descriptor)
  | boxed (inner : Descriptor)
  | list (inner : Descriptor)
  deriving DecidableEq, Repr, Inhabited

namespace Descriptor

/-- The leaf of timestamps, which are sent as strings. -/
def timestampName : String := "Timestamp"

def string : Descriptor := named "String"
def int : Descriptor := named "Int"
def float : Descriptor := named "Float"
def boolean : Descriptor := named "Boolean"
def timestamp : Descriptor := named timestampName

/-- Whether a field of type `full` may be declared as `projected`. -/
def narrows (full projected : Descriptor) : Bool :=
  full == projected ||
    match full with
    | optional inner =>
      inner == projected ||
        match inner with
        | boxed leaf => leaf == projected || optional leaf == projected
        | named name =>
          name == timestampName && (projected == string || projected == optional string)
        | _ => false
    | named name => name == timestampName && projected == string
    | _ => false

/-- The text of a descriptor in diagnostics. -/
def describe : Descriptor → String
  | named name => name
  | optional inner => "Optional<" ++ inner.describe ++ ">"
  | boxed inner => "Boxed<" ++ inner.describe ++ ">"
  | list inner => "List<" ++ inner.describe ++ ">"

/-- The expression of a leaf. -/
def renderName (name : String) : String :=
  if name = "String" then "t.string"
  else if name = "Int" then "t.int"
  else if name = "Float" then "t.float"
  else if name = "Boolean" then "t.boolean"
  else if name = timestampName then "t.timestamp"
  else "t.named(" ++ Text.quote name ++ ")"

/-- The expression that builds a descriptor. -/
def render : Descriptor → String
  | named name => renderName name
  | optional inner => "t.optional(" ++ inner.render ++ ")"
  | boxed inner => "t.boxed(" ++ inner.render ++ ")"
  | list inner => "t.list(" ++ inner.render ++ ")"

theorem narrows_self (d : Descriptor) : narrows d d = true := by simp [narrows]

end Descriptor

end GraphClient
