import GraphClient.Proofs.Descriptor.Narrowing
import GraphClient.Proofs.Document.Grammar
import GraphClient.Proofs.Projection.Exhaustive
import Mathlib.Data.List.Chain

/-!
# Descriptors and nullability

Whether a type may be null can be read from the outside in: a name and a list may be null, and a
mark takes this away from what it marks (`Schema.nullableDescriptor`). The descriptor of a field is
what this gives without an outer `optional`, and then inside one (`descriptor_eq`). So no `optional`
stands directly inside another, only a leaf stands inside `boxed`, and this only if its type is
composite. Types with the same descriptor differ in the names of their leaves at most, but for an
outer mark (`presentDescriptor_eq_iff`).
-/

namespace GraphClient

namespace Descriptor

/-- A descriptor without an outer optional. -/
def present : Descriptor → Descriptor
  | optional inner => inner
  | d => d

/-- Whether a layer may stand directly inside another: no optional inside an optional. -/
def MayHold (outer inner : Layer) : Prop := ¬ (outer = .optional ∧ inner = .optional)

/-- An optional may hold what is not optional outside. -/
theorem isChain_optional {ls : List Layer} (h : ls.IsChain MayHold)
    (hh : ls.head? ≠ some .optional) : (Layer.optional :: ls).IsChain MayHold := by
  refine List.isChain_cons.mpr ⟨fun l hl hb => ?_, h⟩
  rw [hb.2] at hl
  exact hh hl

/-- No box but directly around the leaf. -/
def BoxesLeaf (ls : List Layer) : Prop := Layer.boxed ∉ ls.dropLast

theorem BoxesLeaf.cons {l : Layer} {ls : List Layer} (h : BoxesLeaf ls) (hl : l ≠ .boxed) :
    BoxesLeaf (l :: ls) := by
  cases ls with
  | nil => exact List.not_mem_nil
  | cons k ks =>
    rw [BoxesLeaf, List.dropLast_cons_cons, List.mem_cons, not_or]
    exact ⟨Ne.symm hl, h⟩

end Descriptor

/-- The type with another name at its leaf. -/
def TypeRef.renamed (name : String) : TypeRef → TypeRef
  | named _ => named name
  | list element => list (element.renamed name)
  | nonNull inner => nonNull (inner.renamed name)

namespace Schema

open Descriptor

variable {s : Schema} {timestamps : List String}

/-- What a name in a type stands for: its leaf, boxed if it is composite. -/
def reference (s : Schema) (timestamps : List String) (name : String) : Descriptor :=
  if s.isComposite name then .boxed (leaf timestamps name) else leaf timestamps name

/-- The descriptor of a type that may be null where no mark says that it is not. -/
def nullableDescriptor (s : Schema) (timestamps : List String) : TypeRef → Descriptor
  | .named name => .optional (s.reference timestamps name)
  | .list element => .optional (.list (s.nullableDescriptor timestamps element))
  | .nonNull inner => (s.nullableDescriptor timestamps inner).present

/-! ## Layers -/

theorem layers_leaf (name : String) : (leaf timestamps name).layers = [] := by
  unfold leaf
  split
  · rfl
  · split <;> rfl

theorem layers_reference (name : String) :
    (s.reference timestamps name).layers = if s.isComposite name then [.boxed] else [] := by
  unfold reference
  split
  · exact congrArg (Layer.boxed :: ·) (layers_leaf name)
  · exact layers_leaf name

theorem layers_list (element : TypeRef) : (s.presentDescriptor timestamps (.list element)).layers =
    .list :: ((if element.isNonNull then [] else [.optional]) ++
      (s.presentDescriptor timestamps element).layers) := by
  cases h : element.isNonNull <;> simp [presentDescriptor, layers, h]

/-- A type taken as never null is not optional. -/
theorem head_presentDescriptor (r : TypeRef) :
    (s.presentDescriptor timestamps r).layers.head? ≠ some .optional := by
  induction r with
  | named name =>
    show (s.reference timestamps name).layers.head? ≠ _
    rw [layers_reference]
    split <;> decide
  | list element => simp [layers_list]
  | nonNull inner ih => exact ih

theorem ne_optional (r : TypeRef) (d : Descriptor) :
    s.presentDescriptor timestamps r ≠ .optional d := by
  intro h
  exact head_presentDescriptor r (by rw [h]; rfl)

theorem present_presentDescriptor (r : TypeRef) :
    (s.presentDescriptor timestamps r).present = s.presentDescriptor timestamps r := by
  unfold present
  split
  · rename_i h
    exact absurd h (ne_optional r _)
  · rfl

theorem isChain_presentDescriptor (r : TypeRef) :
    (s.presentDescriptor timestamps r).layers.IsChain MayHold := by
  induction r with
  | named name =>
    show (s.reference timestamps name).layers.IsChain _
    rw [layers_reference]
    split
    · exact List.isChain_singleton _
    · exact List.isChain_nil
  | list element ih =>
    have hlist : ∀ {ls : List Layer}, ls.IsChain MayHold → (Layer.list :: ls).IsChain MayHold :=
      fun h => List.isChain_cons.mpr ⟨fun _ _ hb => (by cases hb.1), h⟩
    rw [layers_list]
    split
    · exact hlist ih
    · exact hlist (isChain_optional ih (head_presentDescriptor element))
  | nonNull inner ih => exact ih

theorem boxesLeaf_presentDescriptor (r : TypeRef) :
    BoxesLeaf (s.presentDescriptor timestamps r).layers := by
  induction r with
  | named name =>
    show BoxesLeaf (s.reference timestamps name).layers
    rw [layers_reference]
    split <;> exact List.not_mem_nil
  | list element ih =>
    rw [layers_list]
    split
    · exact ih.cons (by decide)
    · exact (ih.cons (by decide)).cons (by decide)
  | nonNull inner ih => exact ih

theorem boxed_mem_presentDescriptor (r : TypeRef) :
    .boxed ∈ (s.presentDescriptor timestamps r).layers ↔ s.isComposite r.baseName = true := by
  induction r with
  | named name =>
    show .boxed ∈ (s.reference timestamps name).layers ↔ s.isComposite name = true
    rw [layers_reference]
    cases s.isComposite name <;> simp
  | list element ih =>
    rw [layers_list, TypeRef.baseName, ← ih]
    split <;> simp
  | nonNull inner ih => exact ih

/-! ## Reading nullability -/

/-- A type may be null if it is not marked. -/
theorem nullableDescriptor_eq (r : TypeRef) : s.nullableDescriptor timestamps r =
    if r.isNonNull then s.presentDescriptor timestamps r
    else .optional (s.presentDescriptor timestamps r) := by
  induction r with
  | named name => rfl
  | list element ih => rw [nullableDescriptor, ih]; rfl
  | nonNull inner ih =>
    rw [nullableDescriptor, ih, TypeRef.isNonNull, if_pos rfl, presentDescriptor]
    split
    · exact present_presentDescriptor inner
    · rfl

/-- The descriptor of a field is optional outside, whether or not its type is marked. -/
theorem descriptor_eq (r : TypeRef) :
    s.descriptor timestamps r = .optional (s.nullableDescriptor timestamps r).present := by
  have hp : (s.nullableDescriptor timestamps r).present = s.presentDescriptor timestamps r := by
    rw [nullableDescriptor_eq]
    split
    · exact present_presentDescriptor r
    · rfl
  rw [hp, descriptor]
  cases r <;> rfl

/-! ## Equal descriptors -/

theorem presentDescriptor_named (name : String) :
    s.presentDescriptor timestamps (.named name) = s.reference timestamps name := rfl

/-- A name is told from a list. -/
theorem named_ne_list (name : String) (element : TypeRef) :
    s.presentDescriptor timestamps (.named name) ≠
      s.presentDescriptor timestamps (.list element) := by
  intro h
  have hl := congrArg layers h
  rw [presentDescriptor_named, layers_reference, layers_list] at hl
  split at hl <;> cases hl

theorem isNonNull_renamed (name : String) (r : TypeRef) :
    (r.renamed name).isNonNull = r.isNonNull := by cases r <;> rfl

/-- The elements of two lists, each optional if it is not marked. -/
theorem element_eq_iff {e f : TypeRef} :
    s.presentDescriptor timestamps (.list e) = s.presentDescriptor timestamps (.list f) ↔
      e.isNonNull = f.isNonNull ∧
        s.presentDescriptor timestamps e = s.presentDescriptor timestamps f := by
  simp only [presentDescriptor, Descriptor.list.injEq]
  cases he : e.isNonNull <;> cases hf : f.isNonNull <;>
    simp [ne_optional, Ne.symm (ne_optional _ _)]

/-- Two types that are both marked or both not have the same descriptor just if they differ in
their leaves at most, and these stand for the same. -/
theorem presentDescriptor_eq_iff {r q : TypeRef} (hr : r.IsProper) (hq : q.IsProper)
    (hm : r.isNonNull = q.isNonNull) :
    s.presentDescriptor timestamps r = s.presentDescriptor timestamps q ↔
      r.renamed q.baseName = q ∧
        s.reference timestamps r.baseName = s.reference timestamps q.baseName := by
  induction r generalizing q with
  | named name =>
    cases q with
    | named other => simp [presentDescriptor_named, TypeRef.renamed, TypeRef.baseName]
    | list f => exact iff_of_false (named_ne_list name f) fun h => by cases h.1
    | nonNull f => cases hm
  | list e ih =>
    cases q with
    | named other => exact iff_of_false (named_ne_list other e).symm fun h => by cases h.1
    | nonNull f => cases hm
    | list f =>
      have hf : f.IsProper := hq
      rw [element_eq_iff, TypeRef.renamed, TypeRef.baseName, TypeRef.baseName, TypeRef.list.injEq]
      constructor
      · rintro ⟨he, hd⟩
        exact (ih hr hf he).mp hd
      · rintro ⟨hn, hb⟩
        have he : e.isNonNull = f.isNonNull := by rw [← isNonNull_renamed f.baseName e, hn]
        exact ⟨he, (ih hr hf he).mpr ⟨hn, hb⟩⟩
  | nonNull e ih =>
    cases q with
    | named other => cases hm
    | list f => cases hm
    | nonNull f =>
      rw [TypeRef.renamed, TypeRef.baseName, TypeRef.baseName, TypeRef.nonNull.injEq]
      exact ih hr.2 hq.2 (hr.1.trans hq.1.symm)

theorem isProper_nullable {r : TypeRef} (h : r.IsProper) :
    r.nullable.IsProper ∧ r.nullable.isNonNull = false := by
  cases r with
  | named name => exact ⟨trivial, rfl⟩
  | list element => exact ⟨h, rfl⟩
  | nonNull inner => exact ⟨h.2, h.1⟩

theorem baseName_nullable (r : TypeRef) : r.nullable.baseName = r.baseName := by cases r <;> rfl

/-- The descriptor of a field follows from the nullability of its type. No optional stands directly
inside another; a box stands only directly around the leaf, and does so just if the type is
composite, by the test that decides whether a field can be selected alone. Two fields have the same
descriptor just if their types, each without an outer mark, differ in their leaves at most, and
these stand for the same. -/
theorem descriptor_by_nullability (s : Schema) (timestamps : List String) (r q : TypeRef)
    (hr : r.IsProper) (hq : q.IsProper) :
    s.descriptor timestamps r = .optional (s.nullableDescriptor timestamps r).present ∧
      (s.descriptor timestamps r).layers.IsChain
        (fun outer inner => ¬ (outer = .optional ∧ inner = .optional)) ∧
      .boxed ∉ (s.descriptor timestamps r).layers.dropLast ∧
      (.boxed ∈ (s.descriptor timestamps r).layers ↔ s.isComposite r.baseName = true) ∧
      (∀ f : FieldDef, f.type = r → (s.isLeafField f = true ↔
        .boxed ∉ (s.descriptor timestamps r).layers ∧ ∀ a ∈ f.arguments, a.isRequired = false)) ∧
      (s.descriptor timestamps r = s.descriptor timestamps q ↔
        r.nullable.renamed q.baseName = q.nullable ∧
          s.reference timestamps r.baseName = s.reference timestamps q.baseName) := by
  have hlayers : (s.descriptor timestamps r).layers =
      .optional :: (s.presentDescriptor timestamps r.nullable).layers := rfl
  have hboxed : .boxed ∈ (s.descriptor timestamps r).layers ↔
      s.isComposite r.baseName = true := by
    have hmem : .boxed ∈ (s.presentDescriptor timestamps r.nullable).layers ↔
        s.isComposite r.nullable.baseName = true := boxed_mem_presentDescriptor r.nullable
    rw [hlayers, List.mem_cons, hmem, baseName_nullable]
    exact or_iff_right (by decide)
  refine ⟨descriptor_eq r, ?_, ?_, hboxed, ?_, ?_⟩
  · exact isChain_optional (isChain_presentDescriptor r.nullable) (head_presentDescriptor _)
  · exact (boxesLeaf_presentDescriptor r.nullable).cons (by decide)
  · rintro f rfl
    rw [isLeafField_iff, Demanding, not_or, ← hboxed]
    simp
  · obtain ⟨hr, hrm⟩ := isProper_nullable hr
    obtain ⟨hq, hqm⟩ := isProper_nullable hq
    rw [descriptor, descriptor, Descriptor.optional.injEq,
      presentDescriptor_eq_iff hr hq (hrm.trans hqm.symm), baseName_nullable, baseName_nullable]

def usersText : String := "type User \x7b ids: [ID!]! names: [String!] friends: [[User]!] \x7d"

/-- Lists of names and of identifiers that are never null have the same descriptor, and lists of
lists of users hold a box. -/
theorem descriptor_by_nullability_users :
    let s := (Document.ofString usersText).schema
    let ids : TypeRef := .nonNull (.list (.nonNull (.named "ID")))
    let names : TypeRef := .list (.nonNull (.named "String"))
    let friends : TypeRef := .list (.nonNull (.list (.named "User")))
    ids.IsProper ∧ names.IsProper ∧ friends.IsProper ∧
      s.descriptor ["DateTime"] ids = s.descriptor ["DateTime"] names ∧
      .boxed ∈ (s.descriptor ["DateTime"] friends).layers := by
  intro s ids names friends
  have hids : ids.IsProper := ⟨rfl, rfl, trivial⟩
  have hnames : names.IsProper := ⟨rfl, trivial⟩
  have hfriends : friends.IsProper := ⟨rfl, trivial⟩
  have hkind := (records_ofDefinitions (Document.ofString usersText).definitions).kind?
  have hid : s.kind? "ID" = some .scalar := (hkind "ID").trans (by cbv)
  have hstring : s.kind? "String" = some .scalar := (hkind "String").trans (by cbv)
  have huser : s.kind? "User" = some .object := (hkind "User").trans (by cbv)
  have hsame : s.reference ["DateTime"] "ID" = s.reference ["DateTime"] "String" := by
    rw [reference, reference, isComposite, isComposite, hid, hstring]
    rfl
  have hcomposite : s.isComposite "User" = true := by
    rw [isComposite, huser]
    rfl
  obtain ⟨-, -, -, -, -, heq⟩ := descriptor_by_nullability s ["DateTime"] ids names hids hnames
  obtain ⟨-, -, -, hboxed, -⟩ :=
    descriptor_by_nullability s ["DateTime"] friends ids hfriends hids
  exact ⟨hids, hnames, hfriends, heq.mpr ⟨rfl, hsame⟩, hboxed.mpr hcomposite⟩

end Schema

end GraphClient
