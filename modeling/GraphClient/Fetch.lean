import GraphClient.Double.Layout
import GraphClient.Introspection
import GraphClient.Introspection.Query
import GraphClient.Record

/-!
# Fetching a schema

`Fetch.request` is the request for the types of a server, and `Fetch.schema` turns the reply
into type definitions, or into a `FetchError`: the transport failed, the status is not a
success, the body cannot be read, or it holds no schema.
-/

namespace GraphClient

/-- Why a transport or the reading of a body failed: an error with its message, or a plain
value. -/
inductive Failure where
  | error (message : String)
  | null
  | bool (value : Bool)
  | number (value : Double)
  | string (value : String)
  deriving DecidableEq, Repr

/-- The text of a failure. -/
def Failure.text : Failure → String
  | error message => message
  | null => "null"
  | bool true => "true"
  | bool false => "false"
  | number value => value.text
  | string value => value

/-- A request; its method is always the same. -/
structure Request where
  url : String
  headers : Record String
  body : String

def Request.method (_ : Request) : String := "POST"

/-- A response whose body may turn out to be unreadable. -/
structure Response where
  ok : Bool
  status : Double
  statusText : String
  body : Except Failure Json

/-- What a transport gives for a request. -/
abbrev Transport := Request → Except Failure Response

/-- Why no schema could be fetched. -/
inductive FetchError where
  | unreachable (failure : Failure)
  | refused (status : Double) (statusText : String)
  | unreadable (status : Double) (failure : Failure)
  | noSchema
  deriving DecidableEq, Repr

namespace FetchError

def message : FetchError → String
  | unreachable failure => "HTTP request failed: " ++ failure.text
  | refused status statusText => Text.trimEnd ("HTTP " ++ status.text ++ " " ++ statusText)
  | unreadable _ failure => "Failed to parse JSON: " ++ failure.text
  | noSchema => "No __schema in response"

def status? : FetchError → Option Double
  | refused status _ | unreadable status _ => some status
  | unreachable _ | noSchema => none

def cause? : FetchError → Option Failure
  | unreachable failure | unreadable _ failure => some failure
  | refused _ _ | noSchema => none

end FetchError

namespace Fetch

/-- The headers of every request, before those that are given. -/
def fixedHeaders : Record String :=
  Record.ofPairs [("Content-Type", "application/json"), ("Accept", "application/json")]

/-- The request for the types of a server. -/
def request (endpoint : String) (headers : Record String) : Request where
  url := endpoint
  headers := headers.entries.foldl (fun r h => r.insert h.1 h.2) fixedHeaders
  body := Introspection.requestBody

/-- The type definitions in the body of a response. -/
def definitions (body : Json) : Except FetchError String :=
  match Introspection.schemaOf? body with
  | some schema => .ok (Introspection.sdl schema)
  | none => .error .noSchema

/-- The type definitions that a reply gives. -/
def schema (reply : Except Failure Response) : Except FetchError String :=
  match reply with
  | .error failure => .error (.unreachable failure)
  | .ok response =>
    if !response.ok then .error (.refused response.status response.statusText)
    else
      match response.body with
      | .error failure => .error (.unreadable response.status failure)
      | .ok body => definitions body

end Fetch

end GraphClient
