import GraphClient.Descriptor

/-!
# What a field narrows to

`Narrowing full projected` lists the types that a field of type `full` may be declared with: the
type itself, the type without an outer `optional`, without `optional` and `boxed` or without
`boxed` alone, and a text for a timestamp. This is what `narrows` decides (`narrows_exactly`). A
descriptor is a list of layers around the name of its leaf; a narrowing takes layers away and adds
none, and changes the leaf only from a timestamp to a text, so no two types narrow to each other.
-/

namespace GraphClient.Descriptor

/-- The types that a field may be declared with. -/
inductive Narrowing : Descriptor → Descriptor → Prop where
  | same (d : Descriptor) : Narrowing d d
  | present (d : Descriptor) : Narrowing (optional d) d
  | presentUnboxed (d : Descriptor) : Narrowing (optional (boxed d)) d
  | unboxed (d : Descriptor) : Narrowing (optional (boxed d)) (optional d)
  | text : Narrowing timestamp string
  | presentText : Narrowing (optional timestamp) string
  | optionalText : Narrowing (optional timestamp) (optional string)

/-- What wraps a descriptor. -/
inductive Layer where
  | optional
  | boxed
  | list
  deriving DecidableEq, Repr

/-- The layers around a leaf, the outermost first. -/
def layers : Descriptor → List Layer
  | named _ => []
  | optional inner => .optional :: inner.layers
  | boxed inner => .boxed :: inner.layers
  | list inner => .list :: inner.layers

/-- The name of the leaf. -/
def leafName : Descriptor → String
  | named name => name
  | optional inner | boxed inner | list inner => inner.leafName

variable {a b full projected : Descriptor}

/-- A descriptor is its layers and the name of its leaf. -/
theorem eq_of_layers (hl : a.layers = b.layers) (hn : a.leafName = b.leafName) : a = b := by
  induction a generalizing b with
  | named name =>
    cases b with
    | named other => exact congrArg named hn
    | _ => cases hl
  | optional inner ih =>
    cases b with
    | optional other => exact congrArg optional (ih (List.cons.inj hl).2 hn)
    | _ => cases hl
  | boxed inner ih =>
    cases b with
    | boxed other => exact congrArg boxed (ih (List.cons.inj hl).2 hn)
    | _ => cases hl
  | list inner ih =>
    cases b with
    | list other => exact congrArg list (ih (List.cons.inj hl).2 hn)
    | _ => cases hl

namespace Narrowing

theorem layers_sublist (h : Narrowing a b) : b.layers.Sublist a.layers := by
  cases h with
  | same => exact List.Sublist.refl _
  | present => exact List.sublist_cons_self _ _
  | presentUnboxed => exact (List.sublist_cons_self _ _).trans (List.sublist_cons_self _ _)
  | unboxed => exact (List.sublist_cons_self _ _).cons_cons _
  | text => exact List.Sublist.refl _
  | presentText => exact List.sublist_cons_self _ _
  | optionalText => exact List.Sublist.refl _

theorem leafName (h : Narrowing a b) :
    b.leafName = a.leafName ∨ a.leafName = timestampName ∧ b.leafName = "String" := by
  cases h with
  | same | present | presentUnboxed | unboxed => exact .inl rfl
  | text | presentText | optionalText => exact .inr ⟨rfl, rfl⟩

theorem antisymm (h : Narrowing a b) (h' : Narrowing b a) : a = b := by
  have hl : b.layers = a.layers := h.layers_sublist.eq_of_length_le h'.layers_sublist.length_le
  refine eq_of_layers hl.symm ?_
  rcases h.leafName with hn | ⟨ha, hb⟩
  · exact hn.symm
  · rcases h'.leafName with hn | ⟨ht, -⟩
    · exact hn
    · rw [hb] at ht
      exact absurd ht (by decide)

end Narrowing

/-- An optional type narrows to itself, to what is inside, and to what the inside allows. -/
theorem narrows_optional (inner projected : Descriptor) :
    (optional inner).narrows projected = true ↔ Narrowing (optional inner) projected := by
  constructor
  · intro h
    simp only [narrows, Bool.or_eq_true, beq_iff_eq] at h
    rcases h with rfl | rfl | h
    · exact .same _
    · exact .present _
    · cases inner with
      | boxed leaf =>
        simp only [Bool.or_eq_true, beq_iff_eq] at h
        rcases h with rfl | rfl
        · exact .presentUnboxed _
        · exact .unboxed _
      | named name =>
        simp only [Bool.and_eq_true, Bool.or_eq_true, beq_iff_eq] at h
        obtain ⟨rfl, rfl | rfl⟩ := h
        · exact .presentText
        · exact .optionalText
      | optional | list => cases h
  · intro h
    cases h <;> simp [narrows, timestamp]

theorem narrows_iff_narrowing : full.narrows projected = true ↔ Narrowing full projected := by
  cases full with
  | optional inner => exact narrows_optional inner projected
  | named name =>
    constructor
    · intro h
      simp only [narrows, Bool.or_eq_true, Bool.and_eq_true, beq_iff_eq] at h
      rcases h with rfl | ⟨rfl, rfl⟩
      · exact .same _
      · exact .text
    · intro h
      cases h <;> simp [narrows]
  | boxed inner | list inner =>
    constructor
    · intro h
      simp only [narrows, Bool.or_false, beq_iff_eq] at h
      exact h ▸ .same _
    · intro h
      cases h
      exact narrows_self _

/-- What is decided is whether one of the narrowings applies. Two types that narrow to each other
are the same, and a declared type has no layer that the field lacks. -/
theorem narrows_exactly (full projected : Descriptor) :
    (full.narrows projected = true ↔ Narrowing full projected) ∧
      (full.narrows projected = true ∧ projected.narrows full = true ↔ full = projected) ∧
      (full.narrows projected = true → projected.layers.Sublist full.layers) := by
  refine ⟨narrows_iff_narrowing, ⟨fun h => ?_, ?_⟩, fun h => ?_⟩
  · exact (narrows_iff_narrowing.mp h.1).antisymm (narrows_iff_narrowing.mp h.2)
  · rintro rfl
    exact ⟨narrows_self full, narrows_self full⟩
  · exact (narrows_iff_narrowing.mp h).layers_sublist

end GraphClient.Descriptor
