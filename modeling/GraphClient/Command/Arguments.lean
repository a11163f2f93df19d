import GraphClient.Emission
import GraphClient.Record
import GraphClient.Text.Units

/-!
# Command line arguments

The first argument is a command, the others are its options, each with its value behind it
except for `--strict`. Of an option given twice the last value counts. Arguments that cannot
be read are refused with a `UsageError`, the leftmost one first.
-/

namespace GraphClient

/-- What `fetch` is told. -/
structure FetchOptions where
  endpoint : String := ""
  headers : Record String := .empty
  output : String := "schema.graphql"

/-- What `generate` is told. -/
structure GenerateOptions where
  schema : String := ""
  output : String := "./generated/"
  runtimeModule : String := defaultRuntimeModule
  strict : Bool := false
  deriving DecidableEq, Repr

inductive Command where
  | fetch (options : FetchOptions)
  | generate (options : GenerateOptions)

/-- Why arguments are refused. -/
inductive UsageError where
  | commandMissing
  | unknownCommand (text : String)
  | unknownOption (text : String)
  | valueMissing (option : String)
  | headerWithoutColon (text : String)
  | endpointMissing
  | schemaMissing
  deriving DecidableEq, Repr

/-- The line with which arguments are refused. -/
def UsageError.message : UsageError → String
  | commandMissing => "Error: a command is required (\"fetch\" or \"generate\")"
  | unknownCommand text =>
    "Error: Unknown command: " ++ text ++ " (expected \"fetch\" or \"generate\")"
  | unknownOption text => "Unknown option: " ++ text
  | valueMissing option => "Error: " ++ option ++ " requires a value"
  | headerWithoutColon text =>
    "Error: --header value must be in format \"Name: value\", got \"" ++ text ++ "\""
  | endpointMissing => "Error: --endpoint is required"
  | schemaMissing => "Error: --schema is required (no schema.graphql found in current directory)"

/-- The name and the value of a header, around its first colon and without blanks at the ends. -/
def splitHeader (text : String) : Option (String × String) :=
  let cs := text.toList
  if cs.contains ':' then
    some (Text.trim (String.ofList (cs.takeWhile (· != ':'))),
      Text.trim (String.ofList ((cs.dropWhile (· != ':')).drop 1)))
  else none

namespace FetchOptions

/-- The options with one more header; the reserved key names none. -/
def withHeader (o : FetchOptions) (name value : String) : FetchOptions :=
  if name = reservedKey then o else { o with headers := o.headers.insert name value }

/-- Reads the options of `fetch`. -/
def read (o : FetchOptions) : List String → Except UsageError FetchOptions
  | [] => .ok o
  | [option] =>
    if option = "--endpoint" ∨ option = "--header" ∨ option = "--output" then
      .error (.valueMissing option)
    else .error (.unknownOption option)
  | option :: value :: rest =>
    if option = "--endpoint" then read { o with endpoint := value } rest
    else if option = "--header" then
      match splitHeader value with
      | some (name, value) => read (o.withHeader name value) rest
      | none => .error (.headerWithoutColon value)
    else if option = "--output" then read { o with output := value } rest
    else .error (.unknownOption option)

def authorization : String := "Authorization"

/-- The options with a token for the server, unless they authorize otherwise. -/
def withToken (o : FetchOptions) (token : Option String) : FetchOptions :=
  match token with
  | none => o
  | some token =>
    if token = "" ∨ (o.headers.get? authorization).isSome then o
    else { o with headers := o.headers.insert authorization token }

/-- The options of `fetch` with the token of the environment. -/
def ofArguments (token : Option String) (args : List String) : Except UsageError FetchOptions := do
  let o ← read {} args
  if o.endpoint = "" then .error .endpointMissing else .ok (o.withToken token)

end FetchOptions

namespace GenerateOptions

/-- The schema that is read if no other is named. -/
def defaultSchema : String := "schema.graphql"

/-- Reads the options of `generate`. -/
def read (o : GenerateOptions) : List String → Except UsageError GenerateOptions
  | [] => .ok o
  | [option] =>
    if option = "--strict" then .ok { o with strict := true }
    else if option = "--schema" ∨ option = "--output" ∨ option = "--runtime-module" then
      .error (.valueMissing option)
    else .error (.unknownOption option)
  | option :: value :: rest =>
    if option = "--strict" then read { o with strict := true } (value :: rest)
    else if option = "--schema" then read { o with schema := value } rest
    else if option = "--output" then read { o with output := value } rest
    else if option = "--runtime-module" then read { o with runtimeModule := value } rest
    else .error (.unknownOption option)

/-- The options of `generate`, where the default schema may be there or not. -/
def ofArguments (hasDefault : Bool) (args : List String) : Except UsageError GenerateOptions := do
  let o ← read {} args
  if o.schema ≠ "" then .ok o
  else if hasDefault then .ok { o with schema := defaultSchema }
  else .error .schemaMissing

end GenerateOptions

/-- The command of a list of arguments. -/
def Command.ofArguments (token : Option String) (hasDefault : Bool) :
    List String → Except UsageError Command
  | [] => .error .commandMissing
  | command :: args =>
    if command = "fetch" then (FetchOptions.ofArguments token args).map .fetch
    else if command = "generate" then (GenerateOptions.ofArguments hasDefault args).map .generate
    else if command = "" then .error .commandMissing
    else .error (.unknownCommand command)

end GraphClient
