import GraphClient.Proofs.Descriptor.Narrowing

/-!
# Descriptors with the same text

In the text of a descriptor each layer opens a bracket, and closes it behind what it wraps. The name
of a leaf may be such a text itself, and then the leaf has the text of the descriptor that its name
spells. Two texts are the same in no other way: one of the two descriptors has a leaf where the
other has a part, and the name of this leaf spells the part (`describe_eq_iff`). A name in which no
bracket opens spells nothing but a leaf of this name, so descriptors with such names are told apart
by their texts (`eq_of_describe`).
-/

namespace GraphClient.Descriptor

namespace Layer

/-- A descriptor in a layer. -/
def wrap : Layer → Descriptor → Descriptor
  | optional => Descriptor.optional
  | boxed => Descriptor.boxed
  | list => Descriptor.list

/-- What the text of a layer begins with. -/
def opening : Layer → String
  | optional => "Optional<"
  | boxed => "Boxed<"
  | list => "List<"

theorem bracket_mem_opening (l : Layer) : '<' ∈ l.opening.toList := by
  cases l <;> decide

/-- Layers are told apart by what their texts begin with, whatever follows. -/
theorem opening_append_inj {l k : Layer} {s t : String} :
    l.opening ++ s = k.opening ++ t ↔ l = k ∧ s = t := by
  constructor
  · intro h
    have hl : l = k := by
      -- the words of the layers begin with different letters
      have hh := congrArg (fun u : String => u.toList.head?) h
      cases l <;> cases k <;> simp [opening] at hh ⊢
    subst hl
    exact ⟨rfl, (String.append_right_inj _).mp h⟩
  · rintro ⟨rfl, rfl⟩
    rfl

end Layer

/-- A descriptor is a leaf, or it is in a layer. -/
@[elab_as_elim]
theorem byLayers {P : Descriptor → Prop} (named : ∀ name, P (named name))
    (wrap : ∀ l inner, P inner → P (Layer.wrap l inner)) (d : Descriptor) : P d := by
  induction d with
  | named name => exact named name
  | optional inner ih => exact wrap .optional inner ih
  | boxed inner ih => exact wrap .boxed inner ih
  | list inner ih => exact wrap .list inner ih

variable {a b : Descriptor}

theorem describe_wrap (l : Layer) (d : Descriptor) :
    (l.wrap d).describe = l.opening ++ (d.describe ++ ">") := by
  rw [← String.append_assoc]
  cases l <;> rfl

theorem leafName_wrap (l : Layer) (d : Descriptor) : (l.wrap d).leafName = d.leafName := by
  cases l <;> rfl

theorem describe_wrap_inj {l k : Layer} :
    (l.wrap a).describe = (k.wrap b).describe ↔ l = k ∧ a.describe = b.describe := by
  rw [describe_wrap, describe_wrap, Layer.opening_append_inj, String.append_left_inj]

/-- Where `b` has a part, `a` has a leaf whose name is the text of this part. -/
inductive Mimics : Descriptor → Descriptor → Prop where
  | leaf (d : Descriptor) : Mimics (named d.describe) d
  | inside (l : Layer) {a b : Descriptor} : Mimics a b → Mimics (l.wrap a) (l.wrap b)

theorem Mimics.describe_eq (h : Mimics a b) : a.describe = b.describe := by
  induction h with
  | leaf d => rfl
  | inside l _ ih => exact describe_wrap_inj.mpr ⟨rfl, ih⟩

/-- Two descriptors have the same text just if one of them mimics the other. -/
theorem describe_eq_iff : a.describe = b.describe ↔ Mimics a b ∨ Mimics b a := by
  constructor
  · intro h
    induction a using byLayers generalizing b with
    | named name =>
      have hn : name = b.describe := h
      exact .inl (hn ▸ .leaf b)
    | wrap l inner ih =>
      cases b using byLayers with
      | named name =>
        have hn : (l.wrap inner).describe = name := h
        exact .inr (hn ▸ .leaf (l.wrap inner))
      | wrap k other =>
        obtain ⟨rfl, hi⟩ := describe_wrap_inj.mp h
        exact (ih hi).imp (.inside l) (.inside l)
  · rintro (h | h)
    · exact h.describe_eq
    · exact h.describe_eq.symm

example : (named "List<Int>").describe = (list (named "Int")).describe := rfl

/-- No bracket opens in the name of the leaf. -/
def Unbracketed (d : Descriptor) : Prop := '<' ∉ d.leafName.toList

instance (d : Descriptor) : Decidable d.Unbracketed :=
  inferInstanceAs (Decidable (¬ _))

/-- What is no leaf has a bracket in its text. -/
theorem bracket_mem_describe (l : Layer) (d : Descriptor) : '<' ∈ (l.wrap d).describe.toList := by
  rw [describe_wrap, String.toList_append]
  exact List.mem_append_left _ l.bracket_mem_opening

/-- A descriptor mimics nothing but itself, unless a bracket opens in the name of its leaf. -/
theorem Mimics.eq_of_unbracketed (h : Mimics a b) (ha : a.Unbracketed) : a = b := by
  induction h with
  | leaf d =>
    -- the name of the leaf is the text of `d`, so `d` is in no layer
    cases d using byLayers with
    | named name => rfl
    | wrap l inner => exact absurd (bracket_mem_describe l inner) ha
  | inside l _ ih =>
    rw [Unbracketed, leafName_wrap] at ha
    exact congrArg l.wrap (ih ha)

theorem eq_of_describe (ha : a.Unbracketed) (hb : b.Unbracketed) (h : a.describe = b.describe) :
    a = b :=
  (describe_eq_iff.mp h).elim (fun hm => hm.eq_of_unbracketed ha)
    fun hm => (hm.eq_of_unbracketed hb).symm

end GraphClient.Descriptor
