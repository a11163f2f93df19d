import GraphClient.Proofs.Descriptor.Nullability
import GraphClient.Proofs.Document.TypeReferences
import GraphClient.Proofs.Schema.WellFormed

/-!
# Fields that may be declared as texts

A field narrows to a text if its type, without an outer mark, is a name that stands for no composite
type and has the leaf of texts or that of timestamps (`presentDescriptor_textual_iff`). The leaf of
texts is that of `String` and `ID`. That of timestamps is the leaf of every scalar in the list of
timestamps, and of any type with the name of the leaf itself, be it in the list or not
(`narrows_string_iff`).
-/

namespace GraphClient

namespace Descriptor

variable {d : Descriptor}

/-- An optional type narrows to a text through what is inside it. -/
theorem narrows_string : (optional d).narrows string = true ↔
    d = string ∨ d = boxed string ∨ d = timestamp := by
  rw [narrows_iff_narrowing]
  constructor
  · intro h
    cases h with
    | present => exact .inl rfl
    | presentUnboxed => exact .inr (.inl rfl)
    | presentText => exact .inr (.inr rfl)
  · rintro (rfl | rfl | rfl)
    · exact .present _
    · exact .presentUnboxed _
    · exact .presentText

/-- If what is inside is not optional outside, it narrows to an optional text just as well. -/
theorem narrows_optional_string (h : d.layers.head? ≠ some .optional) (hb : BoxesLeaf d.layers) :
    (optional d).narrows (optional string) = true ↔
      d = string ∨ d = boxed string ∨ d = timestamp := by
  rw [narrows_iff_narrowing]
  constructor
  · intro hn
    cases hn with
    | same => exact .inl rfl
    | present => exact absurd rfl h
    | presentUnboxed => exact absurd List.mem_cons_self hb
    | unboxed => exact .inr (.inl rfl)
    | optionalText => exact .inr (.inr rfl)
  · rintro (rfl | rfl | rfl)
    · exact .same _
    · exact .unboxed _
    · exact .optionalText

end Descriptor

namespace Schema

open Descriptor

variable {s : Schema} {timestamps : List String} {name : String} {r : TypeRef}

/-- The types of the fields of a schema, those of inputs included. -/
def fieldTypes (s : Schema) : List TypeRef :=
  (s.objects.flatMap ObjectDef.fields ++ s.queryFields ++ s.mutationFields).map FieldDef.type ++
    (s.inputs.flatMap InputDef.fields).map InputValueDef.type

theorem WellFormed.isProper_fieldTypes (h : s.WellFormed) (hr : r ∈ s.fieldTypes) : r.IsProper := by
  rw [fieldTypes, List.mem_append, List.mem_map, List.mem_map] at hr
  rcases hr with ⟨f, hf, rfl⟩ | ⟨v, hv, rfl⟩
  · rw [List.mem_append, List.mem_append, List.mem_flatMap] at hf
    rcases hf with (⟨o, ho, hf⟩ | hf) | hf
    · exact ((h.listed (.object o) ho).1.members f hf).type.isProper
    · exact (h.queryFields f hf).type.isProper
    · exact (h.mutationFields f hf).type.isProper
  · obtain ⟨i, hi, hv⟩ := List.mem_flatMap.mp hv
    exact ((h.listed (.input i) hi).1.members v hv).type.isProper

/-! ## Leaves -/

theorem leaf_eq_string (h : leaf timestamps name = .string) : name = "ID" ∨ name = "String" := by
  unfold leaf at h
  split at h
  · exact .inl ‹_›
  · split at h
    · exact absurd (Descriptor.named.inj h) (by decide)
    · exact .inr (Descriptor.named.inj h)

/-- The leaf of texts, or that of timestamps. -/
theorem leaf_textual_iff : leaf timestamps name = .string ∨ leaf timestamps name = .timestamp ↔
    name = "String" ∨ name = "ID" ∨ name ∈ timestamps ∨ name = timestampName := by
  unfold leaf
  by_cases hid : name = "ID"
  · simp [hid]
  · by_cases hm : name ∈ timestamps
    · simp [hid, hm]
    · simp [hid, hm, string, timestamp]

/-- Without definitions of their own the built-in names stand for no composite types. -/
theorem isComposite_of_builtin {ds : List Definition} (hs : s.Records ds)
    (h : ∀ d ∈ ds, d.name ∉ builtinScalars) (hn : name ∈ builtinScalars) :
    s.isComposite name = false := by
  have hk : s.kind? name = some .scalar := by
    have hnone : ∀ d ∈ ds, d.kindOf? name = none := fun d hd => by
      rw [Definition.kindOf?, if_neg]
      rintro rfl
      exact h d hd hn
    have hb : isBuiltinScalar name = true := by simpa [isBuiltinScalar] using hn
    rw [hs.kind?, lastSome?_eq_none hnone, builtinKind?, if_pos hb]
    rfl
  rw [isComposite, hk]
  rfl

/-- What a field narrows to a text through: a name that is not composite, with a leaf for it. -/
theorem presentDescriptor_textual_iff
    (hb : ∀ n, leaf timestamps n = .string → s.isComposite n = false)
    (hr : r.isNonNull = false) :
    (s.presentDescriptor timestamps r = .string ∨
        s.presentDescriptor timestamps r = .boxed .string ∨
        s.presentDescriptor timestamps r = .timestamp) ↔
      ∃ n, r = .named n ∧ s.isComposite n = false ∧
        (leaf timestamps n = .string ∨ leaf timestamps n = .timestamp) := by
  cases r with
  | nonNull inner => cases hr
  | list element => simp [presentDescriptor, string, timestamp]
  | named n =>
    simp only [presentDescriptor_named, reference, TypeRef.named.injEq, exists_eq_left']
    cases hc : s.isComposite n with
    | true =>
      have hs : leaf timestamps n ≠ .string := fun hl => by
        rw [hb n hl] at hc
        cases hc
      simpa [string, timestamp] using hs
    | false =>
      have hne : leaf timestamps n ≠ .boxed .string := fun hl => by
        have hn : (leaf timestamps n).layers = [] := layers_leaf n
        rw [hl] at hn
        cases hn
      simp [hne]

/-- In a text that does not define the built-in names anew, a field narrows to a text, optional or
not, just if its type without an outer mark is a name for no composite type, and this is `String`,
`ID`, one of the timestamps, or the name of their leaf. -/
theorem narrows_string_iff (text : String) (options : EmitOptions)
    (h : ∀ d ∈ (Document.ofString text).definitions, d.name ∉ builtinScalars) (r : TypeRef)
    (hr : r ∈ (Document.ofString text).schema.fieldTypes) :
    let s := (Document.ofString text).schema
    let Textual := ∃ n, r.nullable = .named n ∧ s.isComposite n = false ∧
      (n = "String" ∨ n = "ID" ∨ n ∈ options.timestamps ∨ n = timestampName)
    ((s.descriptor options.timestamps r).narrows .string = true ↔ Textual) ∧
      ((s.descriptor options.timestamps r).narrows (.optional .string) = true ↔ Textual) := by
  intro s Textual
  have hs : s.Records (Document.ofString text).definitions := records_ofDefinitions _
  have hm := (isProper_nullable ((Document.schema_wellFormed text).isProper_fieldTypes hr)).2
  have hb : ∀ n, leaf options.timestamps n = .string → s.isComposite n = false := fun n hl =>
    isComposite_of_builtin hs h (by rcases leaf_eq_string hl with rfl | rfl <;> decide)
  have htextual := presentDescriptor_textual_iff hb hm
  simp only [leaf_textual_iff] at htextual
  refine ⟨narrows_string.trans htextual, Iff.trans ?_ htextual⟩
  exact narrows_optional_string (head_presentDescriptor _) (boxesLeaf_presentDescriptor _)

/-- A text with an enum that has the name of the leaf of timestamps. -/
def stampText : String := "enum Timestamp \x7b CREATED \x7d type Entry \x7b stamp: Timestamp \x7d"

/-- A field of that enum may be declared as a text, though no scalar of that name is a timestamp. -/
theorem narrows_string_stamp :
    (∀ d ∈ (Document.ofString stampText).definitions, d.name ∉ builtinScalars) ∧
      .named "Timestamp" ∈ (Document.ofString stampText).schema.fieldTypes ∧
      (Document.ofString stampText).schema.kind? "Timestamp" = some .enum ∧
      "Timestamp" ∉ ({} : EmitOptions).timestamps ∧
      ((Document.ofString stampText).schema.descriptor ({} : EmitOptions).timestamps
        (.named "Timestamp")).narrows .string = true := by
  have hnames : (Document.ofString stampText).definitions.map Definition.name =
      ["Timestamp", "Entry"] := by cbv
  have hd : ∀ d ∈ (Document.ofString stampText).definitions, d.name ∉ builtinScalars := by
    rw [← List.forall_mem_map (P := (· ∉ builtinScalars)), hnames]
    decide
  have hr : .named "Timestamp" ∈ (Document.ofString stampText).schema.fieldTypes := by
    have ht : (Document.ofString stampText).schema.fieldTypes = [.named "Timestamp"] := by cbv
    exact ht ▸ List.mem_cons_self
  have hkind : (Document.ofString stampText).schema.kind? "Timestamp" = some .enum := by
    rw [Document.schema, (records_ofDefinitions _).kind?]
    cbv
  refine ⟨hd, hr, hkind, by decide, (narrows_string_iff stampText {} hd _ hr).1.mpr ?_⟩
  refine ⟨"Timestamp", rfl, ?_, .inr (.inr (.inr rfl))⟩
  rw [isComposite, hkind]
  rfl

end Schema

end GraphClient
