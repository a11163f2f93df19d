import GraphClient.Text.Split

/-!
# Paths

A `Path` is a list of steps from the working directory or from the root. Two steps are idle,
the empty one and the dot; two dots lead one step back. `normalize` takes out idle steps, and
steps back together with the steps that they undo.
-/

namespace GraphClient

/-- The steps of a path; a path from the root is absolute. -/
structure Path where
  isAbsolute : Bool
  steps : List String
  deriving DecidableEq, Repr

namespace Path

def ofString (s : String) : Path :=
  ⟨s.toList.head? = some '/', (Text.parts '/' s.toList).map String.ofList⟩

/-- Whether a step stays where it is. -/
def isIdle (step : String) : Bool := step == "" || step == "."

/-- The steps after one more, with each step back taken at once where that is possible. -/
def resolve (isAbsolute : Bool) (steps : List String) (step : String) : List String :=
  if isIdle step then steps
  else if step = ".." then
    match steps.getLast? with
    | none => if isAbsolute then [] else [".."]
    | some last => if last = ".." then steps ++ [".."] else steps.dropLast
  else steps ++ [step]

/-- The path without idle steps and without steps back that can be taken at once. -/
def normalize (p : Path) : Path := ⟨p.isAbsolute, p.steps.foldl (resolve p.isAbsolute) []⟩

/-- The path of a name in a directory. -/
def join (directory : Path) (name : String) : Path :=
  normalize ⟨directory.isAbsolute, directory.steps ++ [name]⟩

/-- The directory that a path names something in. -/
def parent (p : Path) : Path :=
  ⟨p.isAbsolute, (p.steps.reverse.dropWhile (· == "")).drop 1 |>.reverse⟩

/-- The text of a normal path. -/
def toString (p : Path) : String :=
  (if p.isAbsolute then "/" else "") ++ "/".intercalate p.steps

end Path

end GraphClient
