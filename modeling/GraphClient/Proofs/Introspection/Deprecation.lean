import GraphClient.Proofs.Introspection.RoundTrip

/-!
# Marks of deprecation

`unmarked` is a schema without the marks of deprecation on its fields and enum values. Marks are
no part of what a schema stands for. They are inert just if no reason that is written has a
line break (`marks_inert_iff`): a line break ends the string that it is written in, and no token
is read from there on.
-/

namespace GraphClient

namespace Introspection

/-! ## Schemas without marks -/

def unmarkedMember (j : Json) : Json := j.without ["isDeprecated", "deprecationReason"]

def unmarkedType (j : Json) : Json :=
  (j.mapMember "fields" (.mapItems unmarkedMember)).mapMember "enumValues"
    (.mapItems unmarkedMember)

/-- A schema without marks of deprecation on its fields and enum values. -/
def unmarked (schema : Json) : Json := schema.mapMember "types" (.mapItems unmarkedType)

section Unmarked

variable {j schema : Json}

theorem unmarkedMember_isObject (j : Json) : (unmarkedMember j).isObject = j.isObject := by
  cases j <;> rfl

theorem unmarkedType_isObject (j : Json) : (unmarkedType j).isObject = j.isObject := by
  cases j <;> rfl

theorem same_unmarkedMember :
    Json.SameBut ["isDeprecated", "deprecationReason"] (unmarkedMember j) j := Json.sameBut_without

theorem same_unmarkedType : Json.SameBut ["enumValues", "fields"] (unmarkedType j) j :=
  Json.SameBut.mapMember (Json.SameBut.mapMember fun _ _ => rfl)

theorem fields_unmarkedType :
    (unmarkedType j).objectsMember "fields" = (j.objectsMember "fields").map unmarkedMember := by
  have hsame : Json.SameBut ["enumValues"] (unmarkedType j) _ := .mapMember fun _ _ => rfl
  rw [hsame.objectsMember (by decide), Json.objectsMember_map unmarkedMember_isObject]

theorem enumValues_unmarkedType : (unmarkedType j).objectsMember "enumValues" =
    (j.objectsMember "enumValues").map unmarkedMember := by
  have hsame : Json.SameBut ["fields"]
      (j.mapMember "fields" (.mapItems unmarkedMember)) j := .mapMember fun _ _ => rfl
  rw [unmarkedType, Json.objectsMember_map unmarkedMember_isObject,
    hsame.objectsMember (by decide)]

theorem types_unmarked : (unmarked schema).objectsMember "types" =
    (schema.objectsMember "types").map unmarkedType :=
  Json.objectsMember_map unmarkedType_isObject

theorem reason?_unmarkedMember : reason? (unmarkedMember j) = none := by
  have hm : (unmarkedMember j).isTrueMember "isDeprecated" = false := by
    rw [Json.isTrueMember, unmarkedMember, Json.member?_without_self (by decide)]
  rw [reason?, hm]
  rfl

/-! ## Meaning without marks -/

theorem fieldOf_unmarkedMember : fieldOf (unmarkedMember j) = fieldOf j := by
  rw [fieldOf, fieldOf, same_unmarkedMember.textOf (by decide),
    same_unmarkedMember.textOf? (by decide), same_unmarkedMember.elementType (by decide),
    same_unmarkedMember.objectsMember (by decide)]

theorem enumValueOf_unmarkedMember : enumValueOf (unmarkedMember j) = enumValueOf j := by
  rw [enumValueOf, enumValueOf, same_unmarkedMember.textOf (by decide),
    same_unmarkedMember.textOf? (by decide)]

theorem definitionOf_unmarkedType : definitionOf (unmarkedType j) = definitionOf j := by
  have hf : fieldOf ∘ unmarkedMember = fieldOf := funext fun _ => fieldOf_unmarkedMember
  have hv : enumValueOf ∘ unmarkedMember = enumValueOf :=
    funext fun _ => enumValueOf_unmarkedMember
  have hk : textOf "kind" (unmarkedType j) = textOf "kind" j :=
    same_unmarkedType.textOf (by decide)
  have hn : textOf "name" (unmarkedType j) = textOf "name" j :=
    same_unmarkedType.textOf (by decide)
  have hd : textOf? "description" (unmarkedType j) = textOf? "description" j :=
    same_unmarkedType.textOf? (by decide)
  have hi : (unmarkedType j).objectsMember "inputFields" = j.objectsMember "inputFields" :=
    same_unmarkedType.objectsMember (by decide)
  simp only [definitionOf, scalarOf, enumOf, inputOf, objectOf, hk, hn, hd, hi,
    fields_unmarkedType, enumValues_unmarkedType, List.map_map, hf, hv]

theorem sorted_unmarked : sorted (unmarked schema) = (sorted schema).map unmarkedType :=
  sorted_map unmarkedType_isObject (fun _ => same_unmarkedType.textOf (by decide))
    fun _ => same_unmarkedType.textOf (by decide)

/-! ## Well-formed data without marks -/

theorem FieldWellFormed.unmarked (h : FieldWellFormed j) : FieldWellFormed (unmarkedMember j) where
  name := by rw [same_unmarkedMember.textOf (by decide)]; exact h.name
  description := by rw [same_unmarkedMember.textOf (by decide)]; exact h.description
  type := by rw [same_unmarkedMember.elementType (by decide)]; exact h.type
  typeName := by rw [same_unmarkedMember.elementType (by decide)]; exact h.typeName
  args := by rw [same_unmarkedMember.objectsMember (by decide)]; exact h.args

theorem TypeWellFormed.unmarked (h : TypeWellFormed j) : TypeWellFormed (unmarkedType j) where
  name := by rw [same_unmarkedType.textOf (by decide)]; exact h.name
  notReserved := by rw [isReserved, same_unmarkedType.textOf (by decide)]; exact h.notReserved
  notBuiltin := by rw [same_unmarkedType.textOf (by decide)]; exact h.notBuiltin
  kind := by rw [same_unmarkedType.textOf (by decide)]; exact h.kind
  description := by rw [same_unmarkedType.textOf (by decide)]; exact h.description
  enumValues := by
    rw [enumValues_unmarkedType, List.forall_mem_map]
    intro v hv
    rw [same_unmarkedMember.textOf (by decide), same_unmarkedMember.textOf (by decide)]
    exact h.enumValues v hv
  inputFields := by rw [same_unmarkedType.objectsMember (by decide)]; exact h.inputFields
  fields := by
    rw [fields_unmarkedType, List.forall_mem_map]
    exact fun f hf => (h.fields f hf).unmarked
  interfaces := by
    rw [same_unmarkedType.namesIn (by decide)]
    exact h.interfaces
  members := by
    rw [same_unmarkedType.namesIn (by decide)]
    exact h.members
  union := by
    rw [same_unmarkedType.textOf (by decide), same_unmarkedType.namesIn (by decide)]
    exact h.union

theorem WellFormed.unmarked (h : WellFormed schema) : WellFormed (unmarked schema) where
  types := by
    rw [types_unmarked, List.forall_mem_map]
    exact fun j hj => (h.types j hj).unmarked
  nodup := by
    have hn : textOf "name" ∘ unmarkedType = textOf "name" :=
      funext fun j => same_unmarkedType.textOf (by decide)
    rw [types_unmarked, List.map_map, hn]
    exact h.nodup

theorem reasonsOnLine_unmarkedType : ReasonsOnLine (unmarkedType j) := by
  rw [ReasonsOnLine, fields_unmarkedType, enumValues_unmarkedType, List.forall_mem_map,
    List.forall_mem_map]
  refine ⟨fun _ v _ s hs => ?_, fun _ f _ s hs => ?_⟩ <;>
  · rw [reason?_unmarkedMember] at hs
    cases hs

/-- The text of a schema without marks is the document of the definitions of its types. -/
theorem ofString_unmarked (h : WellFormed schema) :
    Document.ofString (sdl (unmarked schema)) = ⟨(sorted schema).map definitionOf, []⟩ := by
  have hd : definitionOf ∘ unmarkedType = definitionOf := funext fun _ => definitionOf_unmarkedType
  have hr : ∀ j ∈ (unmarked schema).objectsMember "types", ReasonsOnLine j := by
    rw [types_unmarked, List.forall_mem_map]
    exact fun _ _ => reasonsOnLine_unmarkedType
  rw [ofString_sdl h.unmarked hr, sorted_unmarked, List.map_map, hd]

theorem warnings_of_reason (h : WellFormed schema)
    (hr : ¬ ∀ j ∈ schema.objectsMember "types", ReasonsOnLine j) :
    (Document.ofString (sdl schema)).warnings ≠ [] := by
  have hm : ∀ j, j ∈ sorted schema ↔ j ∈ schema.objectsMember "types" :=
    fun j => h.sorted_perm.mem_iff
  refine warnings_of_breaks (types_break (fun j hj => (h.types j ((hm j).mp hj)).formed)
    (fun j hj => (h.types j ((hm j).mp hj)).fits) fun hs => hr ?_)
  exact fun j hj => hs j ((hm j).mpr hj)

/-- A schema is read without warnings and as if it had no marks just if no reason of deprecation
that is written has a line break. -/
theorem marks_inert_iff (h : WellFormed schema) :
    ((Document.ofString (sdl schema)).warnings = [] ∧
      (Document.ofString (sdl schema)).schema =
        (Document.ofString (sdl (unmarked schema))).schema) ↔
      ∀ j ∈ schema.objectsMember "types", ReasonsOnLine j := by
  refine ⟨fun hw => ?_, fun hr => ?_⟩
  · by_contra hr
    exact warnings_of_reason h hr hw.1
  · rw [ofString_unmarked h, ofString_sdl h hr]
    exact ⟨rfl, rfl⟩

/-- A mark is inert if its reason is one line, and no longer if a line feed is put into it. -/
theorem marks_inert_iff_palette :
    ((Document.ofString (sdl (Palette.schema "faded"))).warnings = [] ∧
      (Document.ofString (sdl (Palette.schema "faded"))).schema =
        (Document.ofString (sdl (unmarked (Palette.schema "faded")))).schema) ∧
      ¬ ((Document.ofString (sdl (Palette.schema "fa\nded"))).warnings = [] ∧
        (Document.ofString (sdl (Palette.schema "fa\nded"))).schema =
          (Document.ofString (sdl (unmarked (Palette.schema "fa\nded")))).schema) := by
  constructor
  · exact (marks_inert_iff (Palette.wellFormed _)).mpr (Palette.reasonsOnLine_iff.mpr (by decide))
  · intro h
    have hr := Palette.reasonsOnLine_iff.mp ((marks_inert_iff (Palette.wellFormed _)).mp h)
    exact absurd hr (by decide)

end Unmarked

end Introspection

end GraphClient
