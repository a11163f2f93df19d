import GraphClient.Proofs.Document.Followed
import GraphClient.Proofs.Emission.Uncommented

/-!
# The order of definitions

Definitions of different names may change places: `Definition.Apart ds es` says that no name is
defined on both sides, and then `ds ++ es` and `es ++ ds` make up schemas that differ in the order
of their lists alone (`Schema.Reordered`). What is generated for an object depends on the kinds of
names and not on the order, so two texts may follow each other either way
(`Document.order_inert`).
-/

namespace GraphClient

namespace Definition

/-- No name is defined on both sides. -/
def Apart (ds es : List Definition) : Prop := ∀ d ∈ ds, ∀ e ∈ es, d.name ≠ e.name

instance (ds es : List Definition) : Decidable (Apart ds es) :=
  inferInstanceAs (Decidable (∀ d ∈ ds, ∀ e ∈ es, d.name ≠ e.name))

/-- A name is missing on one of the sides. -/
theorem Apart.missing {ds es : List Definition} (h : Apart ds es) (name : String) :
    (∀ d ∈ ds, d.name ≠ name) ∨ ∀ e ∈ es, e.name ≠ name := by
  by_cases hd : ∃ d ∈ ds, d.name = name
  · obtain ⟨d, hd, rfl⟩ := hd
    exact .inr fun e he => (h d hd e he).symm
  · exact .inl fun d hm hn => hd ⟨d, hm, hn⟩

/-- What only definitions of one name answer is found in either order. -/
theorem Apart.lastSome? {ds es : List Definition} (h : Apart ds es) {β : Type} (name : String)
    {f : Definition → Option β} (hf : ∀ d, d.name ≠ name → f d = none) :
    lastSome? f (ds ++ es) = lastSome? f (es ++ ds) := by
  rw [lastSome?_append, lastSome?_append]
  rcases h.missing name with hd | he
  · rw [lastSome?_eq_none fun d hm => hf d (hd d hm), Option.or_none, Option.none_or]
  · rw [lastSome?_eq_none fun e hm => hf e (he e hm), Option.or_none, Option.none_or]

end Definition

theorem find?_append_comm {α : Type} {p : α → Bool} {as bs : List α}
    (h : as.find? p = none ∨ bs.find? p = none) : (as ++ bs).find? p = (bs ++ as).find? p := by
  rw [List.find?_append, List.find?_append]
  rcases h with h | h
  · rw [h, Option.or_none, Option.none_or]
  · rw [h, Option.or_none, Option.none_or]

namespace Schema

open Definition

/-- Two schemas that differ in the order of their lists alone. -/
structure Reordered (s t : Schema) : Prop where
  scalars : s.scalars.Perm t.scalars
  enums : s.enums.Perm t.enums
  objects : s.objects.Perm t.objects
  inputs : s.inputs.Perm t.inputs
  queryFields : s.queryFields = t.queryFields
  mutationFields : s.mutationFields = t.mutationFields
  kind? : ∀ name, s.kind? name = t.kind? name
  object? : ∀ name, s.object? name = t.object? name

section Definitions

variable {ds es : List Definition}

theorem Records.object?_eq_none {s : Schema} (h : s.Records ds) {name : String}
    (hn : ∀ d ∈ ds, d.name ≠ name) : s.object? name = none := by
  rw [Schema.object?, h.objects, List.find?_eq_none]
  intro o ho he
  obtain ⟨d, hd, hdo⟩ := List.mem_filterMap.mp ho
  exact hn d hd ((name_of_object? hdo).symm.trans (beq_iff_eq.mp he))

/-- Definitions of different names may change places. -/
theorem ofDefinitions_append_comm (h : Apart ds es) :
    (ofDefinitions (ds ++ es)).Reordered (ofDefinitions (es ++ ds)) := by
  have hs := records_ofDefinitions (ds ++ es)
  have ht := records_ofDefinitions (es ++ ds)
  have hfields (root : String) : lastSome? (·.fieldsOf? root) (ds ++ es) =
      lastSome? (·.fieldsOf? root) (es ++ ds) := by
    refine h.lastSome? root fun d hd => ?_
    cases d with
    | object d => exact if_neg hd
    | _ => rfl
  have hkind (name : String) : lastSome? (·.kindOf? name) (ds ++ es) =
      lastSome? (·.kindOf? name) (es ++ ds) := h.lastSome? name fun d hd => if_neg hd
  refine ⟨?_, ?_, ?_, ?_, ?_, ?_, fun name => ?_, fun name => ?_⟩
  · rw [hs.scalars, ht.scalars, List.filterMap_append, List.filterMap_append]
    exact List.perm_append_comm
  · rw [hs.enums, ht.enums, List.filterMap_append, List.filterMap_append]
    exact List.perm_append_comm
  · rw [hs.objects, ht.objects, List.filterMap_append, List.filterMap_append]
    exact List.perm_append_comm
  · rw [hs.inputs, ht.inputs, List.filterMap_append, List.filterMap_append]
    exact List.perm_append_comm
  · rw [hs.queryFields, ht.queryFields, hfields]
  · rw [hs.mutationFields, ht.mutationFields, hfields]
  · rw [hs.kind?, ht.kind?, hkind]
  · have hd := records_ofDefinitions ds
    have he := records_ofDefinitions es
    rw [Schema.object?, Schema.object?, hs.objects, ht.objects, List.filterMap_append,
      List.filterMap_append, ← hd.objects, ← he.objects]
    exact find?_append_comm ((h.missing name).imp hd.object?_eq_none he.object?_eq_none)

end Definitions

section Reordered

variable {s t : Schema}

theorem Reordered.fullType? (h : s.Reordered t) (timestamps : List String) (name : String) :
    s.fullType? timestamps name = t.fullType? timestamps name := by
  rw [Schema.fullType?, Schema.fullType?, h.object?]
  congr 1
  funext o
  rw [fullFields, fullFields, descriptor_congr h.kind?]

/-- The objects with a projection are the same, in another order. -/
theorem Reordered.projected (h : s.Reordered t) : s.projected.Perm t.projected := by
  rw [Schema.projected, Schema.projected, selectable_congr h.kind?]
  exact (h.objects.map _).filter _

theorem Reordered.leftOut (h : s.Reordered t) (options : EmitOptions) :
    (s.emit options).leftOut.Perm (t.emit options).leftOut := by
  rw [emit, emit, leftOut_congr h.kind?]
  exact h.objects.flatMap_right _

end Reordered

end Schema

namespace Document

open Definition

theorem schema_swapped {d e : String} (hd : IsClosed d) (he : IsClosed e)
    (h : Apart (ofString d).definitions (ofString e).definitions) :
    (ofString (d ++ "\n" ++ e)).schema.Reordered (ofString (e ++ "\n" ++ d)).schema := by
  rw [schema, schema, ofString_followed hd, ofString_followed he]
  exact Schema.ofDefinitions_append_comm h

/-- Two texts that define no name in common may follow each other either way. Names stand for the
same, the roots have the same fields, and every object has the same full type, the same lines in a
generated module and the same fields left out; the module has these blocks in another order. -/
theorem order_inert {d e : String} (hd : IsClosed d) (he : IsClosed e)
    (h : Apart (ofString d).definitions (ofString e).definitions) (options : EmitOptions) :
    let s := (ofString (d ++ "\n" ++ e)).schema
    let t := (ofString (e ++ "\n" ++ d)).schema
    let timestamps := options.timestamps
    s.Reordered t ∧
      (∀ name, s.fullType? timestamps name = t.fullType? timestamps name) ∧
      (∀ o : ObjectDef,
        s.fullTypeLines timestamps o = t.fullTypeLines timestamps o ∧
        s.selectable o = t.selectable o ∧
        s.projectionLines timestamps o (s.selectable o) =
          t.projectionLines timestamps o (t.selectable o) ∧
        s.leftOut o = t.leftOut o) ∧
      s.projected.Perm t.projected ∧
      (s.emit options).leftOut.Perm (t.emit options).leftOut := by
  intro s t timestamps
  have hr : s.Reordered t := schema_swapped hd he h
  refine ⟨hr, hr.fullType? timestamps, fun o => ?_, hr.projected, hr.leftOut options⟩
  rw [Schema.fullTypeLines_congr hr.kind?, Schema.selectable_congr hr.kind?,
    Schema.projectionLines_congr hr.kind?, Schema.leftOut_congr hr.kind?]
  exact ⟨rfl, rfl, rfl, rfl⟩

/-- An object whose fields are of types that the other text defines, and one field that no key
selects. -/
def ownedText : String :=
  "type Cat \x7b owner: Person coat: [Coat!] pet_name: String \x7d type Query \x7b cat: Cat \x7d"

/-- An interface that owns, and the coats of its cats. -/
def ownerText : String := "interface Person \x7b name: String \x7d enum Coat \x7b BLACK TABBY \x7d"

theorem isClosed_ownedText : IsClosed ownedText :=
  @isClosed_of_keyword _ .type (by decide) (by cbv) (by cbv) (by cbv)

theorem isClosed_ownerText : IsClosed ownerText :=
  @isClosed_of_keyword _ .enum (by decide) (by cbv) (by cbv) (by cbv)

theorem definitions_apart :
    Apart (ofString ownedText).definitions (ofString ownerText).definitions := by
  have hd : (ofString ownedText).definitions.map Definition.name = ["Cat", "Query"] := by cbv
  have he : (ofString ownerText).definitions.map Definition.name = ["Person", "Coat"] := by cbv
  intro d hmd e hme hn
  have hdn := List.mem_map_of_mem (f := Definition.name) hmd
  have hen := List.mem_map_of_mem (f := Definition.name) hme
  rw [hd, hn] at hdn
  rw [he] at hen
  simp only [List.mem_cons, List.not_mem_nil, or_false] at hdn hen
  rcases hdn with hdn | hdn <;> rcases hen with hen | hen <;>
    exact absurd (hdn.symm.trans hen) (by decide)

/-- The owner of a cat is boxed, whether or not the interface is defined before it. -/
theorem order_inert_cats :
    let s := (ofString (ownedText ++ "\n" ++ ownerText)).schema
    let t := (ofString (ownerText ++ "\n" ++ ownedText)).schema
    IsClosed ownedText ∧ IsClosed ownerText ∧
      Apart (ofString ownedText).definitions (ofString ownerText).definitions ∧
      s.Reordered t ∧ s.fullType? ["DateTime"] "Cat" = t.fullType? ["DateTime"] "Cat" := by
  intro s t
  obtain ⟨hr, hfull, -⟩ := order_inert isClosed_ownedText isClosed_ownerText definitions_apart {}
  exact ⟨isClosed_ownedText, isClosed_ownerText, definitions_apart, hr, hfull "Cat"⟩

end Document

end GraphClient
