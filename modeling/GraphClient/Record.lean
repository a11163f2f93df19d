/-!
# Records

A `Record` maps names to values and remembers an order: names that are array indexes
(`index?`) come first in ascending order, all others follow in the order of their first
insertion. Inserting a name again keeps its place and changes its value.
-/

namespace GraphClient

/-- The array index that a name writes in decimal, below `2 ^ 32 - 1` and without leading zeros. -/
def index? (name : String) : Option Nat :=
  match name.toNat? with
  | some n => if toString n = name ∧ n < 4294967295 then some n else none
  | none => none

/-- A name that stands before another whatever the order of insertion. -/
def Precedes (a b : String) : Prop :=
  ∃ m, index? a = some m ∧ ∀ n, index? b = some n → m < n

instance (a b : String) : Decidable (Precedes a b) :=
  match ha : index? a, hb : index? b with
  | none, _ => isFalse fun ⟨_, h, _⟩ => by simp [ha] at h
  | some m, none => isTrue ⟨m, ha, fun _ h => by simp [hb] at h⟩
  | some m, some n =>
    if h : m < n then isTrue ⟨m, ha, fun k hk => by
      rw [hb] at hk; cases hk; exact h⟩
    else isFalse fun ⟨k, hk, hlt⟩ => by
      rw [ha] at hk; cases hk; exact h (hlt n hb)

theorem Precedes.trans {a b c : String} : Precedes a b → Precedes b c → Precedes a c
  | ⟨m, ha, hab⟩, ⟨n, hb, hbc⟩ =>
    ⟨m, ha, fun k hk => Nat.lt_trans (hab n hb) (hbc k hk)⟩

theorem Precedes.asymm {a b : String} : Precedes a b → ¬ Precedes b a
  | ⟨m, ha, hab⟩, ⟨n, hb, hba⟩ => Nat.lt_asymm (hab n hb) (hba m ha)

/-- Two names of a record in their order. -/
def InOrder (a b : String) : Prop := a ≠ b ∧ ¬ Precedes b a

/-- A map from names to values with an order on the names. -/
structure Record (α : Type) where
  entries : List (String × α)
  ordered : (entries.map Prod.fst).Pairwise InOrder

namespace Record

variable {α β : Type}

/-- `value` at `key`: in its old place, else before the first name it precedes. -/
def put (key : String) (value : α) : List (String × α) → List (String × α)
  | [] => [(key, value)]
  | (k, v) :: rest =>
    if k = key then (key, value) :: rest
    else if Precedes key k then (key, value) :: (k, v) :: rest
    else (k, v) :: put key value rest

theorem mem_keys_put {key name : String} {value : α} {entries : List (String × α)} :
    name ∈ (put key value entries).map Prod.fst ↔ name = key ∨ name ∈ entries.map Prod.fst := by
  induction entries with
  | nil => simp [put]
  | cons e rest ih =>
    obtain ⟨k, v⟩ := e
    unfold put
    split
    · subst_vars; simp
    · split
      · simp
      · rw [List.map_cons, List.mem_cons, ih, List.map_cons, List.mem_cons]
        grind

theorem ordered_put {key : String} {value : α} {entries : List (String × α)}
    (h : (entries.map Prod.fst).Pairwise InOrder) :
    ((put key value entries).map Prod.fst).Pairwise InOrder := by
  induction entries with
  | nil => simp [put]
  | cons e rest ih =>
    obtain ⟨k, v⟩ := e
    rw [List.map_cons, List.pairwise_cons] at h
    obtain ⟨hk, hrest⟩ := h
    unfold put
    split
    · subst_vars
      rw [List.map_cons, List.pairwise_cons]
      exact ⟨hk, hrest⟩
    · rename_i hne
      split
      · rename_i hp
        simp only [List.map_cons, List.pairwise_cons, List.mem_cons]
        refine ⟨fun b hb => ?_, hk, hrest⟩
        rcases hb with rfl | hb
        · exact ⟨Ne.symm hne, hp.asymm⟩
        · obtain ⟨_, hnp⟩ := hk b hb
          exact ⟨fun e => hnp (e ▸ hp), fun hbk => hnp (hbk.trans hp)⟩
      · rename_i hp
        rw [List.map_cons, List.pairwise_cons]
        refine ⟨fun b hb => ?_, ih hrest⟩
        rcases mem_keys_put.mp hb with rfl | hb
        · exact ⟨hne, hp⟩
        · exact hk b hb

theorem lookup_put (key name : String) (value : α) (entries : List (String × α)) :
    (put key value entries).lookup name =
      if name = key then some value else entries.lookup name := by
  induction entries with
  | nil => rw [put, List.lookup_cons]; grind
  | cons e rest ih =>
    obtain ⟨k, v⟩ := e
    unfold put
    split
    · rw [List.lookup_cons, List.lookup_cons]; grind
    · split
      · rw [List.lookup_cons]; grind
      · rw [List.lookup_cons, ih, List.lookup_cons]; grind

def empty : Record α := ⟨[], .nil⟩

instance : Inhabited (Record α) := ⟨empty⟩

def insert (r : Record α) (key : String) (value : α) : Record α :=
  ⟨put key value r.entries, ordered_put r.ordered⟩

/-- The record of pairs inserted one after the other. -/
def ofPairs (pairs : List (String × α)) : Record α :=
  pairs.foldl (fun r p => r.insert p.1 p.2) empty

def get? (r : Record α) (key : String) : Option α := r.entries.lookup key

theorem get?_insert (r : Record α) (key name : String) (value : α) :
    (r.insert key value).get? name = if name = key then some value else r.get? name :=
  lookup_put key name value r.entries

def keys (r : Record α) : List String := r.entries.map Prod.fst

theorem mem_keys_insert {r : Record α} {key name : String} {value : α} :
    name ∈ (r.insert key value).keys ↔ name = key ∨ name ∈ r.keys :=
  mem_keys_put

theorem keys_nodup (r : Record α) : r.keys.Nodup :=
  r.ordered.imp fun h => h.1

def values (r : Record α) : List α := r.entries.map Prod.snd

def isEmpty (r : Record α) : Bool := r.entries.isEmpty

/-- The same names with other values. -/
def map (f : String → α → β) (r : Record α) : Record β :=
  ⟨r.entries.map fun e => (e.1, f e.1 e.2), by
    have h : (r.entries.map fun e => (e.1, f e.1 e.2)).map Prod.fst = r.entries.map Prod.fst := by
      simp [Function.comp_def]
    rw [h]; exact r.ordered⟩

end Record

end GraphClient
