import GraphClient.Command.Run

/-!
# The command line

`fetch` writes the schema of a server as type definitions, `generate` the module of a schema.
No transport is built in, so `fetch` reports that none is there.
-/

namespace GraphClient.Console

/-- Whether a file can be opened. -/
def canOpen (name : String) : IO Bool := do
  try
    let _ ← IO.FS.Handle.mk name .read
    return true
  catch _ => return false

/-- Generates the module of a schema. -/
def generate (o : GenerateOptions) : IO UInt32 := do
  let text ← IO.FS.readFile o.schema
  let generation := o.generation text
  generation.problems.forM fun line => IO.eprintln line
  match generation.module? with
  | none => return 1
  | some source =>
    IO.FS.createDirAll o.output
    IO.FS.writeFile o.modulePath.toString source
    IO.println o.done
    return 0

/-- Reports that the schema of a server cannot be fetched. -/
def fetch : IO UInt32 := do
  match Fetch.schema (.error (.error "no transport")) with
  | .error e => IO.eprintln ("Error: " ++ e.message)
  | .ok _ => return 0
  return 1

end GraphClient.Console

open GraphClient in
def main (args : List String) : IO UInt32 := do
  let token ← IO.getEnv "GRAPHQL_TOKEN"
  let hasDefault ← Console.canOpen GenerateOptions.defaultSchema
  match Command.ofArguments token hasDefault args with
  | .error e =>
    IO.eprintln e.message
    return 1
  | .ok (.generate o) => Console.generate o
  | .ok (.fetch _) => Console.fetch
