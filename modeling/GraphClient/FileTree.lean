import GraphClient.Path
import GraphClient.Text.Units

/-!
# Files

A `FileTree` holds the files and directories that can be reached. A `Location` is a list of
names, where `..` at its front leads out of the working directory and `/` stands for the
root. A path is followed one step after the other, so each step but the last must be a
directory.
-/

namespace GraphClient

/-- Names that lead to a file or directory. -/
abbrev Location := List String

namespace Location

/-- Where a path starts. -/
def start (p : Path) : Location := if p.isAbsolute then ["/"] else []

/-- The location one step back. -/
def back (l : Location) : Location :=
  match l.getLast? with
  | none => [".."]
  | some last => if last = ".." then l ++ [".."] else if last = "/" then l else l.dropLast

/-- Whether a location is the working directory, one above it, or the root. -/
def isBase (l : Location) : Bool := l == ["/"] || l.all (· == "..")

/-- Whether a location is in the working directory. -/
def isInside (l : Location) : Bool := l.head? != some ".." && l.head? != some "/"

end Location

/-- The files and directories. -/
structure FileTree where
  files : List (Location × String)
  directories : List Location
  deriving DecidableEq, Repr

namespace FileTree

def isFile (t : FileTree) (l : Location) : Bool := t.files.any (·.1 == l)

def isDirectory (t : FileTree) (l : Location) : Bool := l.isBase || t.directories.contains l

/-- Follows steps from a directory to a directory. -/
def enter (t : FileTree) (l : Location) : List String → Option Location
  | [] => if t.isDirectory l then some l else none
  | step :: steps =>
    if !t.isDirectory l then none
    else if Path.isIdle step then t.enter l steps
    else if step = ".." then t.enter l.back steps
    else t.enter (l ++ [step]) steps

/-- The location that a path names, whether or not there is a file. -/
def locate (t : FileTree) (p : Path) : Option Location :=
  match p.steps.getLast? with
  | none => none
  | some last =>
    if Path.isIdle last || last == ".." then none
    else (t.enter (Location.start p) p.steps.dropLast).map (· ++ [last])

/-- The text of a file. -/
def read? (t : FileTree) (p : Path) : Option String :=
  (t.locate p).bind fun l => t.files.lookup l

/-- Whether a path leads to a file or a directory. -/
def has (t : FileTree) (p : Path) : Bool :=
  (t.read? p).isSome || (t.enter (Location.start p) p.steps).isSome

/-- The file at a location, in the place of an older one. -/
def put (l : Location) (text : String) : List (Location × String) → List (Location × String)
  | [] => [(l, text)]
  | f :: rest => if f.1 = l then (l, text) :: rest else f :: put l text rest

theorem lookup_put (l m : Location) (text : String) (files : List (Location × String)) :
    (put l text files).lookup m = if m = l then some text else files.lookup m := by
  induction files with
  | nil => rw [put, List.lookup_cons]; grind
  | cons f rest ih =>
    unfold put
    split
    · rw [List.lookup_cons, List.lookup_cons]; grind
    · rw [List.lookup_cons, ih, List.lookup_cons]; grind

/-- Writes a file into a directory that is there. -/
def write? (t : FileTree) (p : Path) (text : String) : Option FileTree :=
  match t.locate p with
  | none => none
  | some l => if t.isDirectory l then none else some { t with files := put l text t.files }

/-- Makes the directories of steps from a directory, one after the other. A file that is in the way
ends it, and the directories made up to there stay. -/
def makeSteps (t : FileTree) (l : Location) : List String → Except FileTree FileTree
  | [] => .ok t
  | step :: steps =>
    if Path.isIdle step then t.makeSteps l steps
    else if step = ".." then t.makeSteps l.back steps
    else if t.isFile (l ++ [step]) then .error t
    else if t.isDirectory (l ++ [step]) then t.makeSteps (l ++ [step]) steps
    else
      FileTree.makeSteps { t with directories := t.directories ++ [l ++ [step]] } (l ++ [step])
        steps

/-- Makes a directory and those that lead to it; the empty path names none. -/
def makeDirectory (t : FileTree) (p : Path) : Except FileTree FileTree :=
  if p = ⟨false, [""]⟩ then .error t else t.makeSteps (Location.start p) p.steps

/-- Writes a text to a path after making a directory, or leaves what was made. -/
def save (t : FileTree) (directory path : Path) (text : String) : Except FileTree FileTree :=
  match t.makeDirectory directory with
  | .error made => .error made
  | .ok made =>
    match made.write? path text with
    | none => .error made
    | some saved => .ok saved

/-- The files of paths and texts below the working directory. Every directory that a path passes
is there, also one that the path leaves again. -/
def ofList (files : List (String × String)) : FileTree :=
  files.foldl (fun t f =>
    let p := Path.ofString f.1
    match t.save p.parent p f.2 with
    | .ok saved => saved
    | .error _ => t) ⟨[], []⟩

/-- The files below the working directory, sorted by path. -/
def toList (t : FileTree) : List (String × String) :=
  ((t.files.filter fun f => f.1.isInside).map fun f => ("/".intercalate f.1, f.2)).mergeSort
    fun a b => Text.unitLe a.1 b.1

end FileTree

end GraphClient
