import GraphClient.Command.Arguments
import GraphClient.Document
import GraphClient.Fetch
import GraphClient.FileTree

/-!
# Running a command

`run` carries out a command on files, with a token and a transport from outside. Nothing is
written before all else has gone right: `generation` reads a schema and
decides whether its module may be written, and `fetch` asks the server first. Last of all a
directory is made and the file is written into it.
-/

namespace GraphClient

/-- What a run did: its exit code, whether a file could not be read or written, its lines on
both outputs, the requests it made, and the files after it. -/
structure Run where
  exitCode : Nat
  fileError : Bool
  stdout : List String
  stderr : List String
  requests : List Request
  files : FileTree

/-- What generating a module gave: its lines about problems, and the module unless they forbid
it. -/
structure Generation where
  problems : List String
  module? : Option String
  deriving DecidableEq, Repr

def strictError (count : Nat) (what : String) : String :=
  s!"Error: {count} {what} warning(s) in strict mode"

/-- Generates the module of a schema text. -/
def GenerateOptions.generation (o : GenerateOptions) (text : String) : Generation :=
  let document := Document.ofString text
  let parsing := document.warnings.map fun w => "Schema parse warning: " ++ w.message
  if o.strict && !parsing.isEmpty then
    ⟨parsing ++ [strictError parsing.length "schema parse"], none⟩
  else
    let emission := document.schema.emit { runtimeModule := o.runtimeModule }
    let emitting := emission.leftOut.map fun w => "Codegen warning: " ++ w.message
    if o.strict && !emitting.isEmpty then
      ⟨parsing ++ emitting ++ [strictError emitting.length "codegen"], none⟩
    else ⟨parsing ++ emitting, some emission.source⟩

/-- The path of the generated module. -/
def GenerateOptions.modulePath (o : GenerateOptions) : Path :=
  Path.join (Path.ofString o.output) "schema.ts"

/-- The line that ends a run of `generate`. -/
def GenerateOptions.done (o : GenerateOptions) : String := "Generated " ++ o.modulePath.toString

/-- The line that ends a run of `fetch`. -/
def FetchOptions.done (o : FetchOptions) : String := "Wrote " ++ o.output

namespace Run

/-- A run that ends with an error on its error output. -/
def failed (files : FileTree) (requests : List Request) (lines : List String) : Run :=
  ⟨1, false, [], lines, requests, files⟩

/-- A run that ends because a file cannot be read or written. -/
def stopped (files : FileTree) (requests : List Request) (lines : List String) : Run :=
  ⟨1, true, [], lines, requests, files⟩

end Run

/-- Runs `generate`. -/
def GenerateOptions.run (o : GenerateOptions) (files : FileTree) : Run :=
  match files.read? (Path.ofString o.schema) with
  | none => .stopped files [] []
  | some text =>
    let g := o.generation text
    match g.module? with
    | none => .failed files [] g.problems
    | some source =>
      match files.save (Path.ofString o.output) o.modulePath source with
      | .error left => .stopped left [] g.problems
      | .ok saved => ⟨0, false, [o.done], g.problems, [], saved⟩

/-- Runs `fetch`. -/
def FetchOptions.run (o : FetchOptions) (transport : Transport) (files : FileTree) : Run :=
  let request := Fetch.request o.endpoint o.headers
  match Fetch.schema (transport request) with
  | .error e => .failed files [request] ["Error: " ++ e.message]
  | .ok sdl =>
    let path := Path.ofString o.output
    match files.save path.parent path sdl with
    | .error left => .stopped left [request] []
    | .ok saved => ⟨0, false, [o.done], [], [request], saved⟩

/-- Runs the command of a list of arguments. -/
def run (args : List String) (token : Option String) (transport : Transport) (files : FileTree) :
    Run :=
  let hasDefault := files.has (Path.ofString GenerateOptions.defaultSchema)
  match Command.ofArguments token hasDefault args with
  | .error e => .failed files [] [e.message]
  | .ok (.fetch o) => o.run transport files
  | .ok (.generate o) => o.run files

end GraphClient
