import GraphClient.Proofs.Introspection.Order

/-!
# The order of introspection data does not matter

Of what a schema lists as its types, some are rendered (`Rendered`), each as one block that is
computed from it alone. Blocks stand in the order of kinds and, in a kind, of names
(`Before`). Where rendered types differ in kind or name this order is strict, so it leaves one
arrangement, whatever the order of the list (`sdl_canonical`).
-/

namespace GraphClient.Introspection

/-- What a schema lists as its types, be it a type or not. -/
def listed (schema : Json) : List Json := ((schema.member? "types").map Json.items).getD []

/-- A type that is rendered: an object of a known kind with a name that is not reserved, and no
scalar that every schema has. -/
structure Rendered (j : Json) : Prop where
  isObject : j.isObject = true
  name : textOf "name" j ≠ ""
  notReserved : isReserved j = false
  kind : textOf "kind" j ∈ kinds
  notBuiltin : textOf "kind" j = "SCALAR" → Schema.isBuiltinScalar (textOf "name" j) = false

instance (j : Json) : Decidable (Rendered j) :=
  decidable_of_iff
    (j.isObject = true ∧ textOf "name" j ≠ "" ∧ isReserved j = false ∧ textOf "kind" j ∈ kinds ∧
      (textOf "kind" j = "SCALAR" → Schema.isBuiltinScalar (textOf "name" j) = false))
    ⟨fun ⟨ho, hn, hr, hk, hb⟩ => ⟨ho, hn, hr, hk, hb⟩,
      fun ⟨ho, hn, hr, hk, hb⟩ => ⟨ho, hn, hr, hk, hb⟩⟩

/-- The order of two types that are rendered. -/
def Before (a b : Json) : Prop :=
  rank (textOf "kind" a) < rank (textOf "kind" b) ∨
    textOf "kind" a = textOf "kind" b ∧
      Text.unitCompare (textOf "name" a) (textOf "name" b) = .lt

/-- What tells rendered types apart. -/
def key (j : Json) : String × String := (textOf "kind" j, textOf "name" j)

section Before

variable {a b : Json}

theorem rank_injective {k l : String} (hk : k ∈ kinds) (h : rank k = rank l) : k = l := by
  have hlt : rank k < kinds.length := List.idxOf_lt_length_iff.mpr hk
  have hlt' : rank l < kinds.length := h ▸ hlt
  calc k = kinds[rank k] := (List.getElem_idxOf hlt).symm
    _ = kinds[rank l] := by simp only [h]
    _ = l := List.getElem_idxOf hlt'

theorem Before.asymm (h : Before a b) : ¬ Before b a := by
  intro h'
  rcases h with h | ⟨hk, h⟩ <;> rcases h' with h' | ⟨hk', h'⟩
  · omega
  · rw [hk'] at h
    exact Nat.lt_irrefl _ h
  · rw [hk] at h'
    exact Nat.lt_irrefl _ h'
  · have hs : compare (Text.units (textOf "name" b)) (Text.units (textOf "name" a)) =
        (compare (Text.units (textOf "name" a)) (Text.units (textOf "name" b))).swap :=
      Std.OrientedCmp.eq_swap
    rw [Text.unitCompare, hs, ← Text.unitCompare, h] at h'
    cases h'

/-- Sorted types that differ in kind or name are in strict order. -/
theorem before_of_typeLe (hk : textOf "kind" a ∈ kinds) (h : typeLe a b = true)
    (hne : key a ≠ key b) : Before a b := by
  rcases (typeLe_iff a b).mp h with h | ⟨hr, hn⟩
  · exact .inl h
  · have he : textOf "kind" a = textOf "kind" b := rank_injective hk hr
    exact .inr ⟨he, Text.unitCompare_lt hn fun e => hne (Prod.ext he e)⟩

end Before


/-! ## Blocks -/

section Blocks

variable {j : Json}

/-- A type is rendered just if it has a block. -/
theorem typeDefinition_ne (ho : j.isObject = true) (hr : isReserved j = false) :
    typeDefinition j ≠ "" ↔ Rendered j := by
  constructor
  · intro h
    rw [typeDefinition] at h
    by_cases hn : textOf "name" j = ""
    · exact absurd (if_pos hn) h
    have hk : textOf "kind" j ∈ kinds := Decidable.byContradiction fun hk => by
      simp only [kinds, List.mem_cons, List.not_mem_nil, or_false, not_or] at hk
      simp [hn, hk] at h
    refine ⟨ho, hn, hr, hk, fun hs => ?_⟩
    simpa [hn, hs] using h
  · rintro ⟨-, hn, -, hk, hb⟩
    simp only [kinds, List.mem_cons, List.not_mem_nil, or_false] at hk
    rcases hk with hk | hk | hk | hk | hk | hk <;> simp [typeDefinition, hn, hk]
    exact hb hk

/-- Members that are written as nothing may be left out. -/
theorem join_filter {α : Type} {write : α → String} {p : α → Prop} [DecidablePred p]
    {as : List α} (h : ∀ a ∈ as, write a ≠ "" → p a) :
    String.join (as.map write) = String.join ((as.filter p).map write) := by
  induction as with
  | nil => rfl
  | cons a as ih =>
    rw [List.forall_mem_cons] at h
    rw [List.map_cons, String.join_cons, ih h.2]
    by_cases hp : p a
    · rw [List.filter_cons_of_pos (by simpa using hp), List.map_cons, String.join_cons]
    · have he : write a = "" := Decidable.byContradiction fun hw => hp (h.1 hw)
      rw [List.filter_cons_of_neg (by simpa using hp), he, String.empty_append]

end Blocks

/-- The types of a schema that are rendered, in their order. -/
def rendered (schema : Json) : List Json := (sorted schema).filter Rendered

section Rendered

variable {schema schema' : Json}

theorem rendered_perm (schema : Json) :
    (rendered schema).Perm ((listed schema).filter Rendered) := by
  have hp := (List.mergeSort_perm ((schema.objectsMember "types").filter (!isReserved ·))
    typeLe).filter fun j => decide (Rendered j)
  refine hp.trans (.of_eq ?_)
  rw [Json.objectsMember, ← listed, List.filter_filter, List.filter_filter]
  refine List.filter_congr fun j _ => ?_
  by_cases h : Rendered j
  · simp [h, h.isObject, h.notReserved]
  · simp [h]

theorem sdl_eq (schema : Json) :
    sdl schema = String.join ((rendered schema).map typeDefinition) := by
  refine join_filter fun j hj hw => ?_
  rw [sorted, List.mem_mergeSort, List.mem_filter, Json.objectsMember, List.mem_filter] at hj
  exact (typeDefinition_ne hj.1.2 (by simpa using hj.2)).mp hw

theorem rendered_of_mem {j : Json} (h : j ∈ rendered schema) : Rendered j := by
  simpa using (List.mem_filter.mp h).2

theorem rendered_typeLe (schema : Json) :
    (rendered schema).Pairwise fun a b => typeLe a b = true := (sorted_ordered schema).filter _

/-- Types that differ in kind or name are rendered in strict order. -/
theorem rendered_ordered (hd : ((rendered schema).map key).Nodup) :
    (rendered schema).Pairwise Before := by
  refine ((rendered_typeLe schema).and (List.pairwise_map.mp hd)).imp_of_mem ?_
  intro a b ha _ ⟨h, hne⟩
  exact before_of_typeLe (rendered_of_mem ha).kind h hne

end Rendered

/-- The text of a schema is made of one block for each type that is rendered, computed from this
type alone; in the order of kinds and names, which is strict where these tell the types apart.
The same text is made of the same types listed in another order. -/
theorem sdl_canonical (schema schema' : Json) (hp : (listed schema).Perm (listed schema'))
    (hd : (((listed schema).filter Rendered).map key).Nodup) :
    sdl schema = sdl schema' ∧
      ∃ types : List Json, types.Perm ((listed schema).filter Rendered) ∧
        types.Pairwise Before ∧ (∀ j ∈ types, typeDefinition j ≠ "") ∧
        sdl schema = String.join (types.map typeDefinition) := by
  have hperm := rendered_perm schema
  have hperm' : (rendered schema).Perm (rendered schema') :=
    hperm.trans ((hp.filter _).trans (rendered_perm schema').symm)
  have hnodup : ((rendered schema).map key).Nodup := (hperm.map key).nodup_iff.mpr hd
  have horder := rendered_ordered hnodup
  have horder' := rendered_ordered ((hperm'.map key).nodup_iff.mp hnodup)
  have heq : rendered schema = rendered schema' :=
    hperm'.eq_of_pairwise (fun a b _ _ h h' => absurd h' h.asymm) horder horder'
  refine ⟨by rw [sdl_eq, sdl_eq, heq], _, hperm, horder, fun j hj => ?_, sdl_eq schema⟩
  have hr := rendered_of_mem hj
  exact (typeDefinition_ne hr.isObject hr.notReserved).mpr hr

/-- A type with a kind and a name, and nothing else. -/
def bareType (kind name : String) : Json :=
  .object [("kind", .string kind), ("name", .string name)]

def schemaOfTypes (types : List Json) : Json := .object [("types", .array types)]

/-- A scalar, a built-in one, an interface and what is no type give one text in two orders. -/
theorem sdl_canonical_swapped :
    let date := bareType "SCALAR" "Date"
    let id := bareType "SCALAR" "ID"
    let node := bareType "INTERFACE" "Node"
    (([node, .null, date, id].filter Rendered).map key).Nodup ∧
      sdl (schemaOfTypes [node, .null, date, id]) =
        sdl (schemaOfTypes [date, id, node, .null]) := by
  intro date id node
  have hp : ([node, .null] ++ [date, id]).Perm ([date, id] ++ [node, .null]) :=
    List.perm_append_comm
  have hd : (([node, .null, date, id].filter Rendered).map key).Nodup := by decide +kernel
  exact ⟨hd, (sdl_canonical (schemaOfTypes [node, .null, date, id])
    (schemaOfTypes [date, id, node, .null]) hp hd).1⟩

end GraphClient.Introspection
