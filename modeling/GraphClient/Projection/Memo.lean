import GraphClient.Projection

/-!
# Remembered selections

A projection that was asked for its selection remembers the text, and so do those nested in it.
A `Memo` holds what is remembered, by the positions of the projections. `Catalog.ask` gives a
selection: a remembered text, or else the one put together from the selections of the fields,
which is remembered from then on.
-/

namespace GraphClient

/-- The texts remembered so far, by the positions of their projections. -/
abbrev Memo := List (Nat × String)

namespace Catalog

/-- A lookup: given what is remembered, its answer and what is remembered then. -/
abbrev Lookup (α : Type) := Memo → α × Memo

/-- One lookup after the other. -/
def Lookup.sequence : List (Lookup String) → Lookup (List String)
  | [], memo => ([], memo)
  | r :: rs, memo =>
    let (text, memo) := r memo
    let (texts, memo) := sequence rs memo
    (text :: texts, memo)

/-- Asks for the selection of a field. -/
def askField {n : Nat} (ask : Fin n → Lookup String) (key : String) :
    ProjectionField n → Lookup String
  | .plain _, memo => (Naming.wireName key, memo)
  | .nested target _, memo =>
    let (text, memo) := ask target memo
    (Naming.wireName key ++ " \x7b " ++ text ++ " \x7d", memo)

/-- Asks for the selection of a projection. -/
def ask {n : Nat} (c : Catalog n) (i : Fin n) : Lookup String :=
  c.fold (fun position p ask memo =>
    match memo.lookup position with
    | some text => (text, memo)
    | none =>
      let (texts, memo) :=
        Lookup.sequence (p.fields.entries.map fun e => askField ask e.1 e.2) memo
      let text := " ".intercalate texts
      (text, (position, text) :: memo)) i

/-- What is remembered once some projections were asked for their selections. -/
def remembered {n : Nat} (c : Catalog n) (asked : List (Fin n)) : Memo :=
  asked.foldl (fun memo i => (c.ask i memo).2) []

end Catalog

end GraphClient
