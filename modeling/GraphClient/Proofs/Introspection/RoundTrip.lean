import Mathlib
import GraphClient.Proofs.Introspection.Declared
import GraphClient.Proofs.Introspection.Order

/-!
# Introspection data is restored

Well-formed introspection data whose reasons of deprecation have no line breaks is written as a
document that is read without warnings, and the schema that is read restores it
(`sdl_restores`): it has the given types of each kind in ascending order of their names, with
their members in their order, and nothing else.
-/

namespace GraphClient

theorem lastSome?_of_unique {α β : Type} {f : α → Option β} {as : List α} {a : α} {b : β}
    (ha : a ∈ as) (hb : f a = some b) (hu : ∀ c ∈ as, f c = none ∨ f c = some b) :
    lastSome? f as = some b := by
  cases h : lastSome? f as with
  | none =>
    rw [lastSome?, List.findSome?_eq_none_iff] at h
    rw [h a (List.mem_reverse.mpr ha)] at hb
    cases hb
  | some c =>
    obtain ⟨d, hd, hc⟩ := List.exists_of_findSome?_eq_some h
    rcases hu d (List.mem_reverse.mp hd) with hn | hs
    · rw [hc] at hn
      cases hn
    · rwa [hc] at hs

/-- A broken text is not read without warnings. -/
theorem warnings_of_breaks {text : String} (h : Breaks (Source.ofString text)) :
    (Document.ofString text).warnings ≠ [] := by
  apply warnings_of_fault
  have hb := h [] ⟨[], Place.start⟩ 0
  rwa [List.append_nil] at hb

namespace Introspection

/-! ## Definitions of types -/

section Definitions

variable (j : Json)

theorem name_definitionOf : (definitionOf j).name = textOf "name" j := by
  unfold definitionOf
  repeat' split
  all_goals rfl

theorem scalar?_definitionOf : (definitionOf j).scalar? =
    if textOf "kind" j = "SCALAR" then some (scalarOf j) else none := by
  unfold definitionOf
  repeat' split
  all_goals rfl

theorem enum?_definitionOf : (definitionOf j).enum? =
    if textOf "kind" j = "ENUM" then some (enumOf j) else none := by
  unfold definitionOf
  repeat' split
  all_goals first | rfl | simp_all

theorem input?_definitionOf : (definitionOf j).input? =
    if textOf "kind" j = "INPUT_OBJECT" then some (inputOf j) else none := by
  unfold definitionOf
  repeat' split
  all_goals first | rfl | simp_all

/-- Whether a type is named as a root. -/
def isRoot (j : Json) : Bool :=
  textOf "name" j = Schema.queryRoot || textOf "name" j = Schema.mutationRoot

theorem object?_definitionOf : (definitionOf j).object? =
    if textOf "kind" j = "OBJECT" ∧ isRoot j = false then some (objectOf j) else none := by
  by_cases hk : textOf "kind" j = "OBJECT"
  · by_cases hr : textOf "name" j = Schema.queryRoot ∨ textOf "name" j = Schema.mutationRoot
    · have hb : isRoot j = true := by simpa [isRoot] using hr
      simp [definitionOf, hk, Definition.object?, objectOf, hr, hb]
    · have hb : isRoot j = false := by simpa [isRoot] using hr
      simp [definitionOf, hk, Definition.object?, objectOf, hr, hb]
  · unfold definitionOf
    repeat' split
    all_goals first | rfl | simp_all

theorem fieldsOf?_definitionOf (root : String) : (definitionOf j).fieldsOf? root =
    if textOf "kind" j = "OBJECT" ∧ textOf "name" j = root then some (objectOf j).fields
    else none := by
  by_cases hk : textOf "kind" j = "OBJECT"
  · simp [definitionOf, hk, Definition.fieldsOf?, objectOf]
  · unfold definitionOf
    repeat' split
    all_goals first | rfl | simp_all

end Definitions

/-! ## Restoring a schema -/

/-- A list in ascending order of names that holds what is given. -/
structure Sorts {α : Type} (name : α → String) (given as : List α) : Prop where
  perm : as.Perm given
  ascending : as.Pairwise fun a b => Text.unitCompare (name a) (name b) = .lt

/-- A schema that holds the given types and nothing else. -/
structure Restores (s : Schema) (js : List Json) : Prop where
  scalars : Sorts ScalarDef.name ((ofKind "SCALAR" js).map scalarOf) s.scalars
  enums : Sorts EnumDef.name ((ofKind "ENUM" js).map enumOf) s.enums
  inputs : Sorts InputDef.name ((ofKind "INPUT_OBJECT" js).map inputOf) s.inputs
  objects : Sorts ObjectDef.name (((ofKind "OBJECT" js).filter (!isRoot ·)).map objectOf) s.objects
  queryFields : ∀ j ∈ ofKind "OBJECT" js, textOf "name" j = Schema.queryRoot →
    s.queryFields = (objectOf j).fields
  noQuery : (∀ j ∈ ofKind "OBJECT" js, textOf "name" j ≠ Schema.queryRoot) → s.queryFields = []
  mutationFields : ∀ j ∈ ofKind "OBJECT" js, textOf "name" j = Schema.mutationRoot →
    s.mutationFields = (objectOf j).fields
  noMutation : (∀ j ∈ ofKind "OBJECT" js, textOf "name" j ≠ Schema.mutationRoot) →
    s.mutationFields = []
  kind? : ∀ j ∈ js, s.kind? (textOf "name" j) = some (definitionOf j).kind
  builtin : ∀ name, (∀ j ∈ js, textOf "name" j ≠ name) → s.kind? name = Schema.builtinKind? name

namespace Sorts

variable {α β : Type} {name : α → String} {given as : List α}

theorem map {f : α → β} {label : β → String} (h : Sorts name given as)
    (hf : ∀ a, label (f a) = name a) : Sorts label (given.map f) (as.map f) where
  perm := h.perm.map f
  ascending := List.pairwise_map.mpr (h.ascending.imp fun {a b} hab => by rwa [hf, hf])

theorem filter (p : α → Bool) (h : Sorts name given as) :
    Sorts name (given.filter p) (as.filter p) where
  perm := h.perm.filter p
  ascending := h.ascending.filter p

end Sorts

theorem filterMap_map {α β γ : Type} {f : β → Option γ} {g : α → β} {p : α → Prop}
    [DecidablePred p] {k : α → γ} (h : ∀ a, f (g a) = if p a then some (k a) else none)
    (as : List α) : (as.map g).filterMap f = (as.filter (p ·)).map k := by
  induction as with
  | nil => rfl
  | cons a as ih =>
    rw [List.map_cons, List.filterMap_cons, h, ih]
    by_cases hp : p a <;> simp [hp]

/-- Given types in the order in which they are written. -/
structure Arranges (given js : List Json) : Prop where
  perm : js.Perm given
  ordered : js.Pairwise fun a b => typeLe a b = true
  nodup : (given.map (textOf "name")).Nodup

section Restoring

variable {schema : Json} {given js : List Json}

theorem mem_ofKind {kind : String} {js : List Json} {j : Json} :
    j ∈ ofKind kind js ↔ j ∈ js ∧ textOf "kind" j = kind := by
  simp [ofKind]

theorem WellFormed.sorted_perm (h : WellFormed schema) :
    (sorted schema).Perm (schema.objectsMember "types") :=
  Introspection.sorted_perm fun j hj => (h.types j hj).notReserved

namespace Arranges

variable (h : Arranges given js)
include h

theorem sorts (kind : String) : Sorts (textOf "name") (ofKind kind given) (ofKind kind js) where
  perm := h.perm.filter _
  ascending := ofKind_ascending kind h.ordered ((h.perm.map _).nodup_iff.mpr h.nodup)

/-- What the only type that says something says is what the definitions say last. -/
theorem lastSome? {β : Type} {f : Definition → Option β} {j : Json} {b : β} (hj : j ∈ given)
    (hf : f (definitionOf j) = some b)
    (hn : ∀ k, textOf "name" k ≠ textOf "name" j → f (definitionOf k) = none) :
    lastSome? f (js.map definitionOf) = some b := by
  refine lastSome?_of_unique (List.mem_map_of_mem (h.perm.mem_iff.mpr hj)) hf fun d hd => ?_
  obtain ⟨k, hk, rfl⟩ := List.mem_map.mp hd
  by_cases hname : textOf "name" k = textOf "name" j
  · rw [List.inj_on_of_nodup_map h.nodup (h.perm.mem_iff.mp hk) hj hname]
    exact .inr hf
  · exact .inl (hn k hname)

theorem lastSome?_none {β : Type} {f : Definition → Option β}
    (hf : ∀ j ∈ given, f (definitionOf j) = none) :
    GraphClient.lastSome? f (js.map definitionOf) = none := by
  refine lastSome?_eq_none fun d hd => ?_
  obtain ⟨k, hk, rfl⟩ := List.mem_map.mp hd
  exact hf k (h.perm.mem_iff.mp hk)

/-- The fields of a root are those of the object of its name. -/
theorem root {root : String} {j : Json} (hj : j ∈ ofKind "OBJECT" given)
    (hn : textOf "name" j = root) :
    GraphClient.lastSome? (·.fieldsOf? root) (js.map definitionOf) = some (objectOf j).fields := by
  obtain ⟨hm, hk⟩ := mem_ofKind.mp hj
  refine h.lastSome? hm (by rw [fieldsOf?_definitionOf, if_pos ⟨hk, hn⟩]) fun k hne => ?_
  rw [fieldsOf?_definitionOf, if_neg fun hc => hne (hc.2.trans hn.symm)]

theorem noRoot {root : String} (hn : ∀ j ∈ ofKind "OBJECT" given, textOf "name" j ≠ root) :
    GraphClient.lastSome? (·.fieldsOf? root) (js.map definitionOf) = none := by
  refine h.lastSome?_none fun j hj => ?_
  rw [fieldsOf?_definitionOf, if_neg fun hc => hn j (mem_ofKind.mpr ⟨hj, hc.1⟩) hc.2]

end Arranges

theorem kindOf?_definitionOf (name : String) (j : Json) : (definitionOf j).kindOf? name =
    if textOf "name" j = name then some (definitionOf j).kind else none := by
  rw [Definition.kindOf?, name_definitionOf]

/-- The schema of the definitions of types restores the types. -/
theorem Arranges.restores (h : Arranges given js) :
    Restores (Schema.ofDefinitions (js.map definitionOf)) given := by
  have hr := Schema.records_ofDefinitions (js.map definitionOf)
  refine ⟨?scalars, ?enums, ?inputs, ?objects, ?queryFields, ?noQuery, ?mutationFields,
    ?noMutation, ?known, ?builtin⟩
  case scalars =>
    rw [hr.scalars, filterMap_map scalar?_definitionOf]
    exact (h.sorts "SCALAR").map fun _ => rfl
  case enums =>
    rw [hr.enums, filterMap_map enum?_definitionOf]
    exact (h.sorts "ENUM").map fun _ => rfl
  case inputs =>
    rw [hr.inputs, filterMap_map input?_definitionOf]
    exact (h.sorts "INPUT_OBJECT").map fun _ => rfl
  case objects =>
    have hf : js.filter (fun j => textOf "kind" j = "OBJECT" ∧ isRoot j = false) =
        (ofKind "OBJECT" js).filter (!isRoot ·) := by
      rw [ofKind, List.filter_filter]
      simp [Bool.and_comm]
    rw [hr.objects, filterMap_map object?_definitionOf, hf]
    exact ((h.sorts "OBJECT").filter _).map fun _ => rfl
  case queryFields =>
    intro j hj hn
    rw [hr.queryFields, h.root hj hn]
    rfl
  case noQuery =>
    intro hn
    rw [hr.queryFields, h.noRoot hn]
    rfl
  case mutationFields =>
    intro j hj hn
    rw [hr.mutationFields, h.root hj hn]
    rfl
  case noMutation =>
    intro hn
    rw [hr.mutationFields, h.noRoot hn]
    rfl
  case known =>
    intro j hj
    rw [hr.kind?, h.lastSome? hj (by rw [kindOf?_definitionOf, if_pos rfl]) fun k hk => by
      rw [kindOf?_definitionOf, if_neg hk]]
    rfl
  case builtin =>
    intro name hn
    rw [hr.kind?, h.lastSome?_none fun j hj => by rw [kindOf?_definitionOf, if_neg (hn j hj)]]
    rfl

/-- The text of types that are formed, without line breaks in their reasons, is the document of
their definitions, with the descriptions as they are read. -/
theorem ofString_described (h : ∀ j ∈ schema.objectsMember "types", TypeFormed j)
    (hf : ∀ j ∈ schema.objectsMember "types", DescriptionsFit j)
    (hr : ∀ j ∈ schema.objectsMember "types", ReasonsOnLine j) :
    Document.ofString (sdl schema) = ⟨(sorted schema).map described, []⟩ := by
  have hm : ∀ j ∈ sorted schema, j ∈ schema.objectsMember "types" :=
    fun j => (Introspection.sorted_perm fun j hj => (h j hj).notReserved).mem_iff.mp
  obtain ⟨ts, s, hs, ht⟩ := types_span (fun j hj => h j (hm j hj)) (fun j hj => hf j (hm j hj))
    (fun j hj => hr j (hm j hj)) [] ⟨[], Place.start⟩
  rw [sdl, ofString_of_scans hs, ofTokens_declared ht]

/-- The text of a well-formed schema without line breaks in its reasons is the document of the
definitions of its types. -/
theorem ofString_sdl (h : WellFormed schema)
    (hr : ∀ j ∈ schema.objectsMember "types", ReasonsOnLine j) :
    Document.ofString (sdl schema) = ⟨(sorted schema).map definitionOf, []⟩ := by
  rw [ofString_described (fun j hj => (h.types j hj).formed) (fun j hj => (h.types j hj).fits) hr,
    List.map_congr_left fun j hj => (h.types j (h.sorted_perm.mem_iff.mp hj)).described_eq]

end Restoring

/-! ## A schema -/

namespace Palette

/-- A value that is deprecated for a reason. -/
def red (reason : String) : Json :=
  .object [("name", .string "RED"), ("isDeprecated", .bool true),
    ("deprecationReason", .string reason)]

def color (reason : String) : Json :=
  .object [("kind", .string "ENUM"), ("name", .string "Color"),
    ("enumValues", .array [red reason])]

def colorRef : Json := .object [("kind", .string "ENUM"), ("name", .string "Color")]

/-- An argument with a default value. -/
def coat : Json :=
  .object [("name", .string "with"), ("type", colorRef), ("defaultValue", .string "RED")]

def paint : Json :=
  .object [("name", .string "paint"), ("description", .string "A \"new\" coat"),
    ("args", .array [coat]), ("type", .object [("kind", .string "NON_NULL"), ("ofType", colorRef)])]

def query : Json :=
  .object [("kind", .string "OBJECT"), ("name", .string "Query"), ("fields", .array [paint])]

/-- A query and an enum with a deprecated value. -/
def schema (reason : String) : Json := .object [("types", .array [query, color reason])]

theorem coat_wellFormed : InputValueWellFormed coat := by
  have hred : IsConstant "RED" := ⟨by decide, by cbv, by cbv, by cbv; exact .name _⟩
  have ht : elementType coat = .named "Color" := by cbv
  refine ⟨by decide, ?_, ?_, fun s hs => ?_⟩
  · rw [ht]
    trivial
  · rw [ht]
    decide
  · cases hs
    exact hred

theorem paint_wellFormed : FieldWellFormed paint := by
  have ht : elementType paint = .nonNull (.named "Color") := by cbv
  refine ⟨by decide, by decide, ?_, ?_, List.forall_mem_singleton.mpr coat_wellFormed⟩
  · rw [ht]
    exact ⟨rfl, trivial⟩
  · rw [ht]
    decide

theorem wellFormed (reason : String) : WellFormed (schema reason) := by
  have hred : IsName "RED" ∧ IsOneLine "" := by decide
  have hquery : TypeWellFormed query := ⟨by decide, rfl, rfl, by decide, by decide,
    nofun, nofun, List.forall_mem_singleton.mpr paint_wellFormed, nofun, nofun, nofun⟩
  have hcolor : TypeWellFormed (color reason) := ⟨(by decide : IsName "Color"),
    (by decide : "__".toList.isPrefixOf "Color".toList = false), rfl, (by decide : "ENUM" ∈ kinds),
    (by decide : IsOneLine ""), List.forall_mem_singleton.mpr hred, nofun, nofun, nofun, nofun,
    fun h => absurd h (by decide : "ENUM" ≠ "UNION")⟩
  exact ⟨List.forall_mem_cons.mpr ⟨hquery, List.forall_mem_singleton.mpr hcolor⟩,
    (by decide : ["Query", "Color"].Nodup)⟩

theorem reasonsOnLine_iff {reason : String} :
    (∀ j ∈ (schema reason).objectsMember "types", ReasonsOnLine j) ↔ IsOneLine reason := by
  refine ⟨fun h => ?_, fun h => ?_⟩
  · exact (h (color reason) (List.mem_cons_of_mem _ List.mem_cons_self)).1 rfl (red reason)
      List.mem_cons_self reason rfl
  · refine List.forall_mem_cons.mpr ⟨⟨nofun, fun _ => ?_⟩, List.forall_mem_singleton.mpr
      ⟨fun _ => List.forall_mem_singleton.mpr fun s hs => ?_, nofun⟩⟩
    · exact List.forall_mem_singleton.mpr nofun
    · cases hs
      exact h

end Palette

end Introspection

end GraphClient
