import GraphClient.Emission
import GraphClient.Proofs.Document.Names
import GraphClient.Proofs.Naming
import GraphClient.Proofs.Projection.Check
import GraphClient.Proofs.Record
import Mathlib

/-!
# Exhaustive projections

The projection of a generated module selects every field of an object that needs neither a
selection of its own nor an argument and that some key selects (`Schema.exhaustive`). It checks
against the full type of the object, since each of its keys is the name of a field, a key sends
itself, and a type narrows itself. Every other field is composite, has a required argument, or is
named in exactly one warning (`exhaustive_checks`).
-/

namespace GraphClient

/-- Whether a warning begins with the field of an object. -/
def Names (object field message : String) : Prop :=
  (object ++ "." ++ field ++ ": ").toList <+: message.toList

instance (object field message : String) : Decidable (Names object field message) :=
  inferInstanceAs (Decidable (_ <+: _))

namespace Schema

variable (s : Schema) (timestamps : List String) (o : ObjectDef)

/-- A field with a selection of its own or with an argument that has to be given. -/
def Demanding (f : FieldDef) : Prop :=
  s.isComposite f.type.baseName = true ∨ ∃ a ∈ f.arguments, a.isRequired = true

/-- The projection of an object with its full type and all the fields that can be selected. -/
def exhaustive : Projection 0 :=
  ⟨o.name, s.fullType? timestamps o.name,
    Record.ofPairs
      ((s.selectable o).map fun f => (f.name, .plain (s.descriptor timestamps f.type)))⟩

theorem isLeafField_iff (f : FieldDef) : s.isLeafField f = true ↔ ¬ s.Demanding f := by
  simp [isLeafField, Demanding, not_or]

theorem isWireName_iff {name : String} : isWireName name = true ↔ Naming.wireName name = name := by
  simp [isWireName]

theorem not_isWireName_reservedKey : isWireName reservedKey = false := by decide +kernel

variable {s timestamps o} {f : FieldDef}

theorem mem_selectable :
    f ∈ s.selectable o ↔ f ∈ o.fields ∧ ¬ s.Demanding f ∧ Naming.wireName f.name = f.name := by
  rw [selectable, List.mem_filter, Bool.and_eq_true, isLeafField_iff, isWireName_iff]

theorem object?_self {name : String} (h : s.object? name = some o) :
    s.object? o.name = some o := by
  have hn : o.name = name := by simpa using List.find?_some h
  rw [hn, h]

section Fields

variable (hp : ∀ f ∈ o.fields, IsName f.name) (hd : (o.fields.map FieldDef.name).Nodup)

include hp hd

theorem entries_exhaustive : (s.exhaustive timestamps o).fields.entries =
    (s.selectable o).map fun f => (f.name, .plain (s.descriptor timestamps f.type)) := by
  refine Record.entries_ofPairs (fun p hm => ?_) ?_
  · obtain ⟨f, hf, rfl⟩ := List.mem_map.mp hm
    exact hp f (mem_selectable.mp hf).1
  · rw [List.map_map]
    exact hd.sublist (List.filter_sublist.map _)

/-- A full type has the descriptor of every field whose name is no reserved key. -/
theorem get?_fullFields (hf : f ∈ o.fields) (hr : f.name ≠ reservedKey) :
    (s.fullFields timestamps o.fields).get? f.name = some (s.descriptor timestamps f.type) := by
  refine Record.get?_ofPairs (fun p hm => ?_) ?_ ?_
  · obtain ⟨g, hg, rfl⟩ := List.mem_map.mp hm
    exact hp g (List.mem_filter.mp hg).1
  · rw [List.map_map]
    exact hd.sublist (List.filter_sublist.map _)
  · exact List.mem_map.mpr ⟨f, List.mem_filter.mpr ⟨hf, bne_iff_ne.mpr hr⟩, rfl⟩

theorem satisfied_exhaustive (ho : s.object? o.name = some o) :
    (s.exhaustive timestamps o).Satisfied := by
  intro full hfull obligation hobligation
  have hfields : full.fields = s.fullFields timestamps o.fields := by
    rw [exhaustive, fullType?, ho] at hfull
    cases hfull
    rfl
  rw [Projection.obligations, if_pos (by rw [hfull]; rfl), entries_exhaustive hp hd,
    List.mem_flatMap] at hobligation
  obtain ⟨e, he, hobligation⟩ := hobligation
  obtain ⟨f, hf, rfl⟩ := List.mem_map.mp he
  obtain ⟨hmem, -, hwire⟩ := mem_selectable.mp hf
  have hr : f.name ≠ reservedKey := by
    intro hk
    have hn := not_isWireName_reservedKey
    rw [← hk, Bool.eq_false_iff, Ne, isWireName_iff] at hn
    exact hn hwire
  have hget : (s.fullFields timestamps o.fields).get? f.name =
      some (s.descriptor timestamps f.type) := get?_fullFields hp hd hmem hr
  rw [Projection.fieldObligations, hwire, List.mem_cons, List.mem_singleton] at hobligation
  rw [← hfields] at hget
  rcases hobligation with rfl | rfl
  · exact ⟨_, hget⟩
  · exact ⟨_, hget, Descriptor.narrows_self _⟩

theorem selection_exhaustive :
    (Catalog.empty.declare (s.exhaustive timestamps o)).selection 0 =
      " ".intercalate ((s.selectable o).map FieldDef.name) := by
  have hlast := Catalog.fold_last (fun _ p select => " ".intercalate
    (p.fields.entries.map fun e => Catalog.selectField select e.1 e.2)) .empty
    (s.exhaustive timestamps o)
  refine hlast.trans (congrArg (" ".intercalate ·) ?_)
  rw [entries_exhaustive hp hd, List.map_map]
  exact List.map_congr_left fun f hf => (mem_selectable.mp hf).2.2

end Fields

/-! ## Warnings -/

/-- Names behind which a colon stands tell apart what they begin. -/
theorem eq_of_colon {a b : String} (ha : IsName a) (hb : IsName b) {xs ys : List Char}
    (h : a.toList ++ ':' :: xs <+: b.toList ++ ':' :: ys) : a = b := by
  have hc : ∀ {n : String}, IsName n → ∀ c ∈ n.toList, (c != ':') = true := by
    rintro n ⟨c, cs, hn, hs, hcs⟩ d hd
    rw [bne_iff_ne]
    rintro rfl
    rw [hn] at hd
    rcases List.mem_cons.mp hd with rfl | hd
    · exact absurd hs (by decide)
    · exact absurd (hcs _ hd) (by decide)
  have ht : ∀ {n : String} (zs : List Char), IsName n →
      (n.toList ++ ':' :: zs).takeWhile (· != ':') = n.toList := fun zs hn => by
    rw [List.takeWhile_append_of_pos (hc hn), List.takeWhile_cons_of_neg (by simp), List.append_nil]
  obtain ⟨zs, he⟩ := h
  rw [List.append_assoc, List.cons_append] at he
  have := congrArg (List.takeWhile (· != ':')) he
  rw [ht _ ha, ht _ hb] at this
  exact String.toList_inj.mp this

/-- A warning begins with the field that it is about and with no other one. -/
theorem names_message {object field other : String} (hf : IsName field) (ho : IsName other) :
    Names object field (LeftOut.message ⟨object, other⟩) ↔ other = field := by
  simp only [Names, LeftOut.message, String.toList_append, List.append_assoc,
    List.prefix_append_right_inj]
  constructor
  · exact fun h => (eq_of_colon hf ho h).symm
  · rintro rfl
    rw [List.prefix_append_right_inj]
    exact ⟨_, rfl⟩

/-- A field that no key selects is named in one warning. -/
theorem countP_leftOut (hp : ∀ f ∈ o.fields, IsName f.name)
    (hd : (o.fields.map FieldDef.name).Nodup) (hf : f ∈ o.fields) (hl : ¬ s.Demanding f)
    (hw : Naming.wireName f.name ≠ f.name) :
    ((s.leftOut o).map LeftOut.message).countP (Names o.name f.name) = 1 := by
  have hmem : f ∈ o.fields.filter fun g => s.isLeafField g && !isWireName g.name := by
    rw [List.mem_filter, Bool.and_eq_true, isLeafField_iff, Bool.not_eq_true', Bool.eq_false_iff,
      Ne, isWireName_iff]
    exact ⟨hf, hl, hw⟩
  rw [leftOut, List.map_map, List.countP_map]
  trans ((o.fields.filter fun g => s.isLeafField g && !isWireName g.name).map
    FieldDef.name).count f.name
  · rw [List.count, List.countP_map]
    refine List.countP_congr fun g hg => ?_
    have hn := @names_message o.name f.name g.name (hp f hf) (hp g (List.mem_filter.mp hg).1)
    simpa using hn
  · exact List.count_eq_one_of_mem (hd.sublist (List.filter_sublist.map _))
      (List.mem_map_of_mem hmem)

/-- The exhaustive projection of an object that a text defines, when its fields have distinct
names, checks against the full type of the object. It selects, in their order, the fields that its
module keeps. These demand nothing; any other field does, or else one warning names it and no key
sends it. -/
theorem exhaustive_checks (text : String) (options : EmitOptions) (name : String) (o : ObjectDef)
    (ho : (Document.ofString text).schema.object? name = some o)
    (hd : (o.fields.map FieldDef.name).Nodup) :
    let s := (Document.ofString text).schema
    let c := Catalog.empty.declare (s.exhaustive options.timestamps o)
    (s.exhaustive options.timestamps o).fullType.isSome = true ∧ c.check 0 = [] ∧
      c.selection 0 = " ".intercalate ((s.selectable o).map FieldDef.name) ∧
      (∀ f ∈ s.selectable o, ¬ s.Demanding f) ∧
      ∀ f ∈ o.fields, f ∉ s.selectable o → s.Demanding f ∨
        ((s.leftOut o).map LeftOut.message).countP (Names o.name f.name) = 1 ∧
          ∀ key, Naming.wireName key ≠ f.name := by
  intro s c
  have hself : s.object? o.name = some o := object?_self ho
  have hp : ∀ f ∈ o.fields, IsName f.name := fun f hf =>
    ((Document.schema_objects_proper (List.mem_of_find?_eq_some ho)).2 f hf).name
  refine ⟨?_, ?_, selection_exhaustive hp hd, fun f hf => (mem_selectable.mp hf).2.1, ?_⟩
  · simp [exhaustive, fullType?, hself]
  · rw [Catalog.check_eq_nil]
    intro j _
    cases j using Fin.lastCases with
    | last =>
      rw [Catalog.Satisfied, Catalog.fold_last]
      exact satisfied_exhaustive hp hd hself
    | cast j => exact j.elim0
  · intro f hf hk
    by_cases hl : s.Demanding f
    · exact .inl hl
    · have hw : Naming.wireName f.name ≠ f.name := fun hw => hk (mem_selectable.mpr ⟨hf, hl, hw⟩)
      exact .inr ⟨countP_leftOut hp hd hf hl hw,
        not_exists.mp fun he => hw (Naming.exists_wireName_iff.mp he)⟩

/-- A cat with a field whose name is not its own wire name. -/
def cat : ObjectDef :=
  ⟨"Cat", none, [⟨"age", none, .named "Int", []⟩, ⟨"big_cat", none, .named "Int", []⟩]⟩

def catText : String := "type Cat \x7b age: Int big_cat: Int \x7d"

theorem object?_cat : (Document.ofString catText).schema.object? "Cat" = some cat := by cbv

/-- The projection of a cat is checked against the full type of a cat. -/
theorem exhaustive_checks_cat :
    let s := (Document.ofString catText).schema
    let c := Catalog.empty.declare (s.exhaustive ["DateTime"] cat)
    s.object? "Cat" = some cat ∧ (cat.fields.map FieldDef.name).Nodup ∧ c.check 0 = [] ∧
      c.selection 0 = " ".intercalate ((s.selectable cat).map FieldDef.name) := by
  have hd : (cat.fields.map FieldDef.name).Nodup := by decide
  obtain ⟨-, hcheck, hselection, -⟩ := exhaustive_checks catText {} "Cat" cat object?_cat hd
  exact ⟨object?_cat, hd, hcheck, hselection⟩

end Schema

end GraphClient
