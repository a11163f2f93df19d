import GraphClient.FullType
import GraphClient.Naming

/-!
# Projections

A projection names the fields of a response that are wanted; a nested field is selected with
another projection. Projections are declared one after the other in a `Catalog`, and a nested
field refers to one declared earlier, so no projection contains itself, and one that is used
twice is still the same one. `Catalog.fold` computes along this order: what holds of a
projection is computed from what holds of the earlier ones.

A projection may have a full type that it narrows. Its `obligations` say what the full type
has to satisfy, and `check` reports those unmet, of the projection and of every one that can
be reached from it, each of them once and in the order of the first visit.
-/

namespace GraphClient

/-- How a nested projection appears in the response. -/
inductive Wrap where
  | one
  | optional
  | list
  deriving DecidableEq, Repr

/-- A field of a projection, which may refer to `n` earlier projections. -/
inductive ProjectionField (n : Nat) where
  | plain (type : Descriptor)
  | nested (target : Fin n) (wrap : Wrap)

/-- A selection of fields by their keys, with the full type that it narrows. -/
structure Projection (n : Nat) where
  name : String
  fullType : Option FullType
  fields : Record (ProjectionField n)

/-- What a full type has to satisfy for a projection. -/
inductive Obligation where
  | exist (field : String)
  | compatible (field : String) (projected : Descriptor)
  deriving DecidableEq, Repr

/-- Why a field does not narrow its full type. -/
inductive Mismatch where
  | absent
  | incompatible (expected actual : Descriptor)
  deriving DecidableEq, Repr

/-- An obligation of a projection that its full type does not meet. -/
structure Diagnostic where
  projection : String
  field : String
  typeName : String
  mismatch : Mismatch
  deriving DecidableEq, Repr

def Diagnostic.message (d : Diagnostic) : String :=
  match d.mismatch with
  | .absent => "field \"" ++ d.field ++ "\" does not exist on " ++ d.typeName
  | .incompatible expected actual =>
    "field \"" ++ d.field ++ "\" is " ++ expected.describe ++ " on " ++ d.typeName ++ "; " ++
      actual.describe ++ " is not a compatible narrowing"

/-- The texts of the descriptor that was expected and of the one that was found. -/
def Diagnostic.texts? (d : Diagnostic) : Option (String × String) :=
  match d.mismatch with
  | .absent => none
  | .incompatible expected actual => some (expected.describe, actual.describe)

namespace Projection

variable {n : Nat}

/-- The obligations of a field. -/
def fieldObligations (key : String) : ProjectionField n → List Obligation
  | .plain type => [.exist (Naming.wireName key), .compatible (Naming.wireName key) type]
  | .nested _ _ => [.exist (Naming.wireName key)]

/-- What the full type has to satisfy; without one there is nothing to satisfy. -/
def obligations (p : Projection n) : List Obligation :=
  if p.fullType.isSome then p.fields.entries.flatMap fun e => fieldObligations e.1 e.2 else []

/-- The diagnostic of an obligation that is not met; that a field does not exist is reported
once. -/
def discharge (name : String) (full : FullType) : Obligation → Option Diagnostic
  | .exist field =>
    if (full.fields.get? field).isNone then some ⟨name, field, full.typeName, .absent⟩ else none
  | .compatible field projected =>
    match full.fields.get? field with
    | none => none
    | some expected =>
      if expected.narrows projected then none
      else some ⟨name, field, full.typeName, .incompatible expected projected⟩

/-- The diagnostics of a projection alone. -/
def diagnostics (p : Projection n) : List Diagnostic :=
  match p.fullType with
  | none => []
  | some full => p.obligations.filterMap (discharge p.name full)

/-- The projections that a projection refers to, in the order of its fields. -/
def targets (p : Projection n) : List (Fin n) :=
  p.fields.values.filterMap fun
    | .plain _ => none
    | .nested target _ => some target

end Projection

/-- Projections declared one after the other. -/
inductive Catalog : Nat → Type where
  | empty : Catalog 0
  | declare {n : Nat} (earlier : Catalog n) (p : Projection n) : Catalog (n + 1)

namespace Catalog

variable {α : Type}

/-- Computes a value of a projection from its position, itself, and the values of the earlier
ones. -/
def fold (f : (n : Nat) → Projection n → (Fin n → α) → α) : {n : Nat} → Catalog n → Fin n → α
  | n + 1, declare earlier p, i =>
    if h : i.val < n then fold f earlier ⟨i.val, h⟩ else f n p fun j => fold f earlier j

/-- The last projection is computed from the earlier ones. -/
theorem fold_last (f : (n : Nat) → Projection n → (Fin n → α) → α) {n : Nat} (c : Catalog n)
    (p : Projection n) : (c.declare p).fold f (Fin.last n) = f n p fun j => c.fold f j := by
  rw [fold, dif_neg (by simp)]

/-- Declaring another projection changes no earlier one. -/
theorem fold_castSucc (f : (n : Nat) → Projection n → (Fin n → α) → α) {n : Nat} (c : Catalog n)
    (p : Projection n) (i : Fin n) : (c.declare p).fold f i.castSucc = c.fold f i := by
  rw [fold, dif_pos (by simp)]
  rfl

def name {n : Nat} (c : Catalog n) (i : Fin n) : String := c.fold (fun _ p _ => p.name) i

/-- The selection of a field: its wire name, and the selection of a nested projection. -/
def selectField {n : Nat} (select : Fin n → String) (key : String) : ProjectionField n → String
  | .plain _ => Naming.wireName key
  | .nested target _ => Naming.wireName key ++ " \x7b " ++ select target ++ " \x7d"

/-- The text that selects the fields of a projection. -/
def selection {n : Nat} (c : Catalog n) (i : Fin n) : String :=
  c.fold (fun _ p select =>
    " ".intercalate (p.fields.entries.map fun e => selectField select e.1 e.2)) i

def obligations {n : Nat} (c : Catalog n) (i : Fin n) : List Obligation :=
  c.fold (fun _ p _ => p.obligations) i

/-- A walk from projection to projection: given those visited, what it finds and all visited. -/
abbrev Walk := List Nat → List Diagnostic × List Nat

/-- One walk after the other. -/
def Walk.sequence : List Walk → Walk
  | [], visited => ([], visited)
  | w :: ws, visited =>
    let (found, visited) := w visited
    let (later, visited) := sequence ws visited
    (found ++ later, visited)

/-- Visits a projection, if it is not visited yet, and then those it refers to. -/
def walk {n : Nat} (c : Catalog n) (i : Fin n) : Walk :=
  c.fold (fun position p walk visited =>
    if visited.contains position then ([], visited)
    else
      let (later, visited) := Walk.sequence (p.targets.map walk) (position :: visited)
      (p.diagnostics ++ later, visited)) i

/-- The unmet obligations of a projection and of those it reaches. -/
def check {n : Nat} (c : Catalog n) (i : Fin n) : List Diagnostic := (c.walk i []).1

/-- Accepts a projection without diagnostics, or gives the first one. -/
def validate {n : Nat} (c : Catalog n) (i : Fin n) : Except Diagnostic Unit :=
  match c.check i with
  | [] => .ok ()
  | d :: _ => .error d

end Catalog

/-- The message with which a projection is refused. -/
def Diagnostic.refusal (d : Diagnostic) : String := d.projection ++ ": " ++ d.message

end GraphClient
