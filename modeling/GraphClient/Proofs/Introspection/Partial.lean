import Mathlib
import GraphClient.Proofs.Document.Unions
import GraphClient.Proofs.Introspection.Canonical
import GraphClient.Proofs.Introspection.RoundTrip
import GraphClient.Proofs.Schema.WellFormed

/-!
# Partial introspection data

Parts of types may be missing: a list of members that is empty or not there, a reference without
a type. Types without them are still declared, but for unions without members (`Memberless`):
their text ends in the equals sign, and what follows it is taken for a member. So every type keeps
its kind just if no union without members stands before another type, and then the schema
restores the types (`partial_kept_iff`).
-/

namespace GraphClient.Introspection

open Grammar

/-- A type with valid names and no description, of which any part may be empty or missing. -/
structure TypeNamed (j : Json) : Prop where
  name : IsName (textOf "name" j)
  notBuiltin : Schema.isBuiltinScalar (textOf "name" j) = false
  description : textOf "description" j = ""
  enumValues : ∀ v ∈ j.objectsMember "enumValues",
    IsName (textOf "name" v) ∧ IsOneLine (textOf "description" v)
  inputFields : ∀ f ∈ j.objectsMember "inputFields",
    InputValueWellFormed f ∧ IsOneLine (textOf "description" f)
  fields : ∀ f ∈ j.objectsMember "fields", FieldWellFormed f
  interfaces : ∀ n ∈ namesIn "interfaces" j, IsName n
  members : ∀ n ∈ namesIn "possibleTypes" j, IsName n
  reasons : ReasonsOnLine j

/-- A union that names no member. -/
def Memberless (j : Json) : Prop := textOf "kind" j = "UNION" ∧ namesIn "possibleTypes" j = []

instance (j : Json) : Decidable (Memberless j) := inferInstanceAs (Decidable (_ ∧ _))

/-- Data whose rendered types have valid and different names. -/
structure Partial (schema : Json) : Prop where
  types : ∀ j ∈ rendered schema, TypeNamed j
  nodup : ((rendered schema).map (textOf "name")).Nodup

/-- Every union that stands before another type names a member. -/
def Separated (schema : Json) : Prop := ∀ j ∈ (rendered schema).dropLast, ¬ Memberless j

section Types

variable {schema j : Json} {js : List Json}

theorem TypeNamed.wellFormed (h : TypeNamed j) (hr : Rendered j) (hm : ¬ Memberless j) :
    TypeWellFormed j where
  name := h.name
  notReserved := hr.notReserved
  notBuiltin := h.notBuiltin
  kind := hr.kind
  description := by
    rw [h.description]
    exact List.forall_mem_nil _
  enumValues := h.enumValues
  inputFields := h.inputFields
  fields := h.fields
  interfaces := h.interfaces
  members := h.members
  union hk hn := hm ⟨hk, hn⟩

/-- Types that are no unions without members are declared, whatever else they lack. -/
theorem named_span (h : ∀ j ∈ js, TypeNamed j ∧ Rendered j) (hm : ∀ j ∈ js, ¬ Memberless j) :
    Spans (Source.ofString (String.join (js.map typeDefinition))) fun ts =>
      Many Declares ts (js.map definitionOf) := by
  have hw : ∀ j ∈ js, TypeWellFormed j := fun j hj => (h j hj).1.wellFormed (h j hj).2 (hm j hj)
  rw [← List.map_congr_left fun j hj => (hw j hj).described_eq]
  exact types_span (fun j hj => (hw j hj).formed) (fun j hj => (hw j hj).fits) fun j hj =>
    (h j hj).1.reasons

/-- The tokens of a union, be there members or none. -/
theorem union_span (h : TypeNamed j) (hk : textOf "kind" j = "UNION") :
    Spans (Source.ofString (typeDefinition j)) (OfKinds (.name "union" ::
      namedUnion (textOf "name" j) (namesIn "possibleTypes" j))) := by
  have hunion : IsName "union" := by decide
  have hblank : Source.ofString "union " = Source.ofString "union" ++ Source.ofString " " := rfl
  have ht : typeDefinition j = "union " ++ (textOf "name" j ++
      (" = " ++ " | ".intercalate (namesIn "possibleTypes" j))) ++ "\n\n" := by
    simp [typeDefinition, h.name.ne_empty, hk, describe, h.description, String.append_assoc,
      namesIn]
  have hnamed : Spells Delimits (Source.ofString (textOf "name" j ++
      (" = " ++ " | ".intercalate (namesIn "possibleTypes" j))))
      (OfKinds (namedUnion (textOf "name" j) (namesIn "possibleTypes" j))) := by
    rw [ofString_append]
    refine .cons_name h.name (alternatives_spell h.members) fun _ _ => ?_
    rw [ofString_append, List.append_assoc]
    exact delimits_cons (by decide)
  have hall : Spells Delimits (Source.ofString "union" ++ (Source.ofString " " ++ _)) _ :=
    .cons_name hunion (.cons_blank (.inl rfl) hnamed) fun _ _ => delimits_cons (by decide)
  rw [ht, ofString_append, ofString_append, hblank, List.append_assoc (Source.ofString "union")]
  refine (Spans.after hall lineFeeds_spans fun _ => delimits_cons (by decide)).imp ?_
  rintro ts ⟨us, vs, rfl, hu, hv⟩
  rwa [kindsOf_eq_nil.mp hv, List.append_nil]

theorem unions_span (h : ∀ j ∈ js, TypeNamed j) (hk : ∀ j ∈ js, textOf "kind" j = "UNION") :
    Spans (Source.ofString (String.join (js.map typeDefinition)))
      (OfKinds (writtenUnions (textOf "name") (namesIn "possibleTypes") js)) := by
  induction js with
  | nil => exact fun _ s => ⟨[], s, .done, rfl⟩
  | cons j js ih =>
    rw [List.forall_mem_cons] at h hk
    rw [List.map_cons, String.join_cons, ofString_append]
    refine ((union_span h.1 hk.1).append (ih h.2 hk.2)).imp ?_
    rintro ts ⟨us, vs, rfl, hu, hv⟩
    exact (kindsOf_append us vs).trans (congr (congrArg _ hu) hv)

/-- Behind a union stand unions only. -/
theorem unions_last {front : List Json} (h : rendered schema = front ++ j :: js)
    (hk : textOf "kind" j = "UNION") : ∀ k ∈ js, textOf "kind" k = "UNION" := by
  intro k hmem
  have hle := rendered_typeLe schema
  rw [h] at hle
  have hjk := List.rel_of_pairwise_cons (List.pairwise_append.mp hle).2.1 hmem
  have hmem' : k ∈ rendered schema := by
    rw [h]
    exact List.mem_append_right _ (List.mem_cons_of_mem _ hmem)
  have hkind := (rendered_of_mem hmem').kind
  have hlt : rank (textOf "kind" k) < kinds.length := List.idxOf_lt_length_iff.mpr hkind
  have hlength : kinds.length = rank "UNION" + 1 := by decide
  have hrank : rank (textOf "kind" k) = rank "UNION" := by
    rw [← hk] at hlength ⊢
    rcases (typeLe_iff j k).mp hjk with hr | ⟨hr, -⟩ <;> omega
  exact rank_injective hkind hrank

end Types

/-! ## Unions that are kept -/

section Kept

variable {schema : Json} {js : List Json}

theorem Partial.named (h : Partial schema) (hs : ∀ j ∈ js, j ∈ rendered schema) :
    ∀ j ∈ js, TypeNamed j ∧ Rendered j := fun j hj =>
  ⟨h.types j (hs j hj), rendered_of_mem (hs j hj)⟩

/-- The text of types that are declared, in front of unions. -/
theorem front_unions_span {front us : List Json} (h : Partial schema)
    (he : rendered schema = front ++ us) (hf : ∀ j ∈ front, ¬ Memberless j)
    (hu : ∀ j ∈ us, textOf "kind" j = "UNION") :
    Spans (Source.ofString (sdl schema)) fun ts => ∃ fs vs, ts = fs ++ vs ∧
      Many Declares fs (front.map definitionOf) ∧
        OfKinds (writtenUnions (textOf "name") (namesIn "possibleTypes") us) vs := by
  have hfront : ∀ j ∈ front, j ∈ rendered schema := fun j hj => by
    rw [he]
    exact List.mem_append_left us hj
  have hus : ∀ j ∈ us, j ∈ rendered schema := fun j hj => by
    rw [he]
    exact List.mem_append_right front hj
  rw [sdl_eq, he, List.map_append, String.join_append, ofString_append]
  exact (named_span (h.named hfront) hf).append (unions_span (fun j hj => h.types j (hus j hj)) hu)

theorem definitionOf_union {j : Json} (h : textOf "kind" j = "UNION") :
    definitionOf j = .union (textOf "name" j) := by
  simp [definitionOf, h]

/-- Where every union but the last names members, all types are read. -/
theorem definitions_kept (h : Partial schema) (hs : Separated schema) :
    (Document.ofString (sdl schema)).definitions = (rendered schema).map definitionOf := by
  by_cases hall : ∀ j ∈ rendered schema, ¬ Memberless j
  · obtain ⟨ts, s, hscan, hts⟩ :=
      named_span (h.named fun _ hj => hj) hall [] ⟨[], Place.start⟩
    rw [sdl_eq, ofString_of_scans hscan, ofTokens_declared hts]
  push Not at hall
  obtain ⟨j, hj, hm⟩ := hall
  obtain ⟨front, z, he⟩ := (List.eq_nil_or_concat' (rendered schema)).resolve_left
    (List.ne_nil_of_mem hj)
  rw [Separated, he, List.dropLast_concat] at hs
  obtain rfl : j = z := by
    rw [he, List.mem_append, List.mem_singleton] at hj
    exact hj.resolve_left fun hf => hs j hf hm
  obtain ⟨ts, s, hscan, fs, vs, rfl, hfs, hvs⟩ :=
    front_unions_span h he hs (List.forall_mem_singleton.mpr hm.1) [] ⟨[], Place.start⟩
  have hkinds : kindsOf vs = .name "union" :: namedUnion (textOf "name" j) [] := by
    rw [OfKinds, writtenUnions, List.flatMap_singleton, hm.2] at hvs
    exact hvs
  obtain ⟨ws, d, hlast⟩ := @Parse.definitions_memberless _ (lastLine 0 fs) _ hkinds
  have hread := definitions_declared hfs (Parse.atDefinition_union hkinds) hlast
  rw [ofString_of_scans hscan, Document.ofTokens_eq hread, he, List.map_append, List.map_singleton,
    definitionOf_union hm.1]

/-! ## Unions that are lost -/

/-- Where every name is that of a union, there are as many unions. -/
theorem unions_ge {names : List String} {ds : List GraphClient.Definition} (hn : names.Nodup)
    (h : ∀ n ∈ names, ∃ d ∈ ds, d.name = n ∧ d.kind = .union) :
    names.length ≤ (ds.filter (·.kind = .union)).length := by
  have hsub : names ⊆ (ds.filter (·.kind = .union)).map Definition.name := fun n hmem => by
    obtain ⟨d, hd, rfl, hk⟩ := h n hmem
    exact List.mem_map_of_mem (List.mem_filter.mpr ⟨hd, by simpa using hk⟩)
  simpa using (hn.subperm hsub).length_le

/-- The first union without members that stands before another type. -/
theorem exists_first_memberless (h : ¬ Separated schema) :
    ∃ front a b us, rendered schema = front ++ a :: b :: us ∧ Memberless a ∧
      ∀ j ∈ front, ¬ Memberless j := by
  rw [Separated] at h
  push Not at h
  obtain ⟨j, hj, hm⟩ := h
  have hsome : ((rendered schema).dropLast.find? (Memberless ·)).isSome :=
    List.find?_isSome.mpr ⟨j, hj, decide_eq_true hm⟩
  obtain ⟨a, ha⟩ := Option.isSome_iff_exists.mp hsome
  obtain ⟨hma, front, mid, he, hfront⟩ := List.find?_eq_some_iff_append.mp ha
  obtain ⟨init, z, hz⟩ := (List.eq_nil_or_concat' (rendered schema)).resolve_left fun hnil => by
    rw [hnil] at hj
    cases hj
  obtain ⟨b, us, hb⟩ := List.exists_cons_of_ne_nil (List.concat_ne_nil z mid)
  refine ⟨front, a, b, us, ?_, by simpa using hma, fun k hk => by simpa using hfront k hk⟩
  rw [hz, List.dropLast_concat] at he
  rw [hz, he, List.append_assoc, List.cons_append, hb]

/-- A union without members in front of another type is in the way. -/
theorem not_separated {a b : Json} (ha : a ∈ rendered schema) (hm : Memberless a)
    (hb : b ∈ rendered schema) (hlt : typeLe b a = false) : ¬ Separated schema := by
  intro hs
  have hle := rendered_typeLe schema
  obtain ⟨front, z, he⟩ := (List.eq_nil_or_concat' (rendered schema)).resolve_left
    (List.ne_nil_of_mem ha)
  rw [Separated, he, List.dropLast_concat] at hs
  rw [he, List.mem_append, List.mem_singleton] at ha hb
  obtain rfl : a = z := ha.resolve_left fun hf => hs a hf hm
  rcases hb with hb | rfl
  · rw [he] at hle
    have hba := (List.pairwise_append.mp hle).2.2 b hb a (List.mem_singleton_self a)
    rw [hlt] at hba
    cases hba
  · have hbb := typeLe_total b b
    rw [Bool.or_self, hlt] at hbb
    cases hbb

/-- Definitions with the names of later types are behind those of the types before. -/
theorem mem_behind {front : List Json} {n : String} {names : List String}
    {es : List GraphClient.Definition} {d : GraphClient.Definition}
    (hn : (front.map (textOf "name") ++ n :: names).Nodup)
    (hd : d ∈ front.map definitionOf ++ .union n :: es) (hname : d.name ∈ names) : d ∈ es := by
  obtain ⟨-, hbehind, hdisjoint⟩ := List.nodup_append.mp hn
  rcases List.mem_append.mp hd with hd | hd
  · obtain ⟨j, hj, rfl⟩ := List.mem_map.mp hd
    rw [name_definitionOf] at hname
    exact absurd rfl (hdisjoint _ (List.mem_map_of_mem hj) _ (List.mem_cons_of_mem n hname))
  · rcases List.mem_cons.mp hd with rfl | hd
    · exact absurd hname (List.nodup_cons.mp hbehind).1
    · exact hd

/-- Where a union without members stands before another type, a union is lost. -/
theorem separated_of_kinds (h : Partial schema)
    (hk : ∀ j ∈ rendered schema, (Document.ofString (sdl schema)).schema.kind? (textOf "name" j) =
      some (definitionOf j).kind) : Separated schema := by
  by_contra hs
  obtain ⟨front, a, b, us, he, hm, hf⟩ := exists_first_memberless hs
  have hunions : ∀ j ∈ a :: b :: us, textOf "kind" j = "UNION" :=
    List.forall_mem_cons.mpr ⟨hm.1, unions_last he hm.1⟩
  obtain ⟨ts, s, hscan, fs, vs, rfl, hfs, hvs⟩ :=
    front_unions_span h he hf hunions [] ⟨[], Place.start⟩
  have hkinds : kindsOf vs = (.name "union" :: namedUnion (textOf "name" a) []) ++
      writtenUnions (textOf "name") (namesIn "possibleTypes") (b :: us) := by
    rw [OfKinds, writtenUnions, List.flatMap_cons, hm.2] at hvs
    exact hvs
  -- the definitions behind the union have a union less than the data
  obtain ⟨ws, d, ds, hds⟩ := Parse.answers_definitions ⟨lastLine 0 fs, vs⟩
  obtain ⟨es, rfl, hle⟩ := Parse.definitions_swallow hkinds hds
  have hread := definitions_declared hfs (Parse.atDefinition_union hkinds) hds
  have hrecords := Schema.records_ofDefinitions
    (front.map definitionOf ++ .union (textOf "name" a) :: es)
  rw [ofString_of_scans hscan, Document.ofTokens_eq hread] at hk
  -- but each type behind it is known as a union
  have hnodup := h.nodup
  rw [he, List.map_append, List.map_cons] at hnodup
  have hge := unions_ge (List.nodup_cons.mp (List.nodup_append.mp hnodup).2.1).2 fun n hn => by
    obtain ⟨j, hj, rfl⟩ := List.mem_map.mp hn
    have hmem : j ∈ rendered schema := by
      rw [he]
      exact List.mem_append_right _ (List.mem_cons_of_mem _ hj)
    have hkind := hk j hmem
    rw [definitionOf_union (hunions j (List.mem_cons_of_mem _ hj))] at hkind
    obtain ⟨d, hd, hname, hunion⟩ := (hrecords.of_kind? hkind).resolve_right fun hbuiltin =>
      TypeKind.noConfusion hbuiltin.2
    exact ⟨d, mem_behind hnodup hd (hname ▸ hn), hname, hunion⟩
  rw [List.length_map, List.length_cons] at hge
  omega

end Kept

/-- Every type keeps its kind just if every union that stands before another type names a member;
and then the schema that is read restores the types. -/
theorem partial_kept_iff {schema : Json} (h : Partial schema) :
    ((∀ j ∈ rendered schema, (Document.ofString (sdl schema)).schema.kind? (textOf "name" j) =
        some (definitionOf j).kind) ↔ Separated schema) ∧
      (Separated schema → Restores (Document.ofString (sdl schema)).schema (rendered schema)) := by
  have hrestores (hs : Separated schema) :
      Restores (Document.ofString (sdl schema)).schema (rendered schema) := by
    have harranges : Arranges (rendered schema) (rendered schema) :=
      ⟨.refl _, rendered_typeLe schema, h.nodup⟩
    rw [Document.schema, definitions_kept h hs]
    exact harranges.restores
  exact ⟨⟨separated_of_kinds h, fun hs => (hrestores hs).kind?⟩, hrestores⟩

/-! ## Two unions -/

/-- A union of one member. -/
def unionOf (name member : String) : Json :=
  .object [("kind", .string "UNION"), ("name", .string name),
    ("possibleTypes", .array [bareType "OBJECT" member])]

/-- A union without members, an object without fields, and a union behind it. -/
def choices : List Json :=
  [bareType "UNION" "Choice", bareType "OBJECT" "Query", unionOf "Result" "Query"]

theorem choices_partial : Partial (schemaOfTypes choices) := by
  have hperm := rendered_perm (schemaOfTypes choices)
  have hlisted : listed (schemaOfTypes choices) = choices := rfl
  rw [hlisted] at hperm
  have hbare (kind name : String) (h : IsName name) (hb : Schema.isBuiltinScalar name = false) :
      TypeNamed (bareType kind name) :=
    ⟨h, hb, rfl, nofun, nofun, nofun, nofun, nofun, ⟨nofun, nofun⟩⟩
  have hresult : TypeNamed (unionOf "Result" "Query") :=
    ⟨(by decide : IsName "Result"), by decide, rfl, nofun, nofun, nofun, nofun,
      List.forall_mem_singleton.mpr (by decide : IsName "Query"), ⟨nofun, nofun⟩⟩
  refine ⟨fun j hj => ?_, ((hperm.map _).nodup_iff).mpr ?_⟩
  · have hmem := (List.mem_filter.mp (hperm.mem_iff.mp hj)).1
    simp only [choices, List.mem_cons, List.not_mem_nil, or_false] at hmem
    rcases hmem with rfl | rfl | rfl
    · exact hbare _ _ (by decide) (by decide)
    · exact hbare _ _ (by decide) (by decide)
    · exact hresult
  · refine List.Nodup.sublist (List.filter_sublist.map _) ?_
    decide

theorem partial_kept_iff_choices :
    Partial (schemaOfTypes choices) ∧ ¬ (∀ j ∈ rendered (schemaOfTypes choices),
      (Document.ofString (sdl (schemaOfTypes choices))).schema.kind? (textOf "name" j) =
        some (definitionOf j).kind) := by
  have hmem : ∀ j ∈ choices, Rendered j → j ∈ rendered (schemaOfTypes choices) := fun j hj hr =>
    (rendered_perm (schemaOfTypes choices)).mem_iff.mpr
      (List.mem_filter.mpr ⟨hj, decide_eq_true hr⟩)
  have hs : ¬ Separated (schemaOfTypes choices) :=
    not_separated (hmem _ List.mem_cons_self (by decide +kernel)) (by decide +kernel)
      (hmem (unionOf "Result" "Query") (List.mem_cons_of_mem _
        (List.mem_cons_of_mem _ List.mem_cons_self)) (by decide +kernel)) (by decide +kernel)
  exact ⟨choices_partial, fun hk => hs ((partial_kept_iff choices_partial).1.mp hk)⟩
end GraphClient.Introspection
