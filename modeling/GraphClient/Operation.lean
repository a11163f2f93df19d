import GraphClient.Projection
import GraphClient.Value

/-!
# Operations

`Operation.render` writes the text of an operation: a root field with its arguments and the
selection of a projection. A connection selects its nodes with the projection, and where the
page ends.
-/

namespace GraphClient

inductive OperationKind where
  | query
  | mutation
  | connection
  deriving DecidableEq, Repr

/-- A root field with the arguments it is given. -/
structure Operation where
  kind : OperationKind
  field : String
  arguments : Record Value

namespace Operation

/-- The arguments in parentheses, if there are any. -/
def renderArguments (args : Record Value) : Except NotFinite String := do
  let texts ← Value.renderFields args.entries
  return if args.isEmpty then "" else "(" ++ ", ".intercalate texts ++ ")"

/-- What the root field selects. -/
def body (kind : OperationKind) (selection : String) : String :=
  match kind with
  | .query | .mutation => selection
  | .connection => "nodes \x7b " ++ selection ++ " \x7d pageInfo \x7b hasNextPage endCursor \x7d"

def keyword : OperationKind → String
  | .query | .connection => "query"
  | .mutation => "mutation"

/-- The text of an operation with a selection. -/
def render (o : Operation) (selection : String) : Except NotFinite String := do
  let arguments ← renderArguments o.arguments
  return keyword o.kind ++ " \x7b " ++ o.field ++ arguments ++ " \x7b " ++
    body o.kind selection ++ " \x7d \x7d"

end Operation

end GraphClient
