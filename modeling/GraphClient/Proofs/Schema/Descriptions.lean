import GraphClient.Schema

/-!
# Descriptions in a schema

`mapDescriptions f` changes each description of a definition, or of a schema, as `f` says, and
`undescribed` leaves them out. Nothing else in a schema depends on them: the schema of changed
definitions is the changed schema (`Schema.ofDefinitions_mapDescriptions`).
-/

namespace GraphClient

/-- No description, whatever it was. -/
def noText (_ : String) : Option String := none

def InputValueDef.mapDescriptions (f : String → Option String) (v : InputValueDef) :
    InputValueDef :=
  { v with description := v.description.bind f }

def FieldDef.mapDescriptions (f : String → Option String) (d : FieldDef) : FieldDef :=
  { d with description := d.description.bind f, arguments := d.arguments.map (·.mapDescriptions f) }

def EnumValueDef.mapDescriptions (f : String → Option String) (v : EnumValueDef) : EnumValueDef :=
  { v with description := v.description.bind f }

def ScalarDef.mapDescriptions (f : String → Option String) (d : ScalarDef) : ScalarDef :=
  { d with description := d.description.bind f }

def EnumDef.mapDescriptions (f : String → Option String) (d : EnumDef) : EnumDef :=
  { d with description := d.description.bind f, values := d.values.map (·.mapDescriptions f) }

def ObjectDef.mapDescriptions (f : String → Option String) (d : ObjectDef) : ObjectDef :=
  { d with description := d.description.bind f, fields := d.fields.map (·.mapDescriptions f) }

def InputDef.mapDescriptions (f : String → Option String) (d : InputDef) : InputDef :=
  { d with description := d.description.bind f, fields := d.fields.map (·.mapDescriptions f) }

namespace Definition

def mapDescriptions (f : String → Option String) : Definition → Definition
  | scalar d => scalar (d.mapDescriptions f)
  | enum d => enum (d.mapDescriptions f)
  | object d => object (d.mapDescriptions f)
  | input d => input (d.mapDescriptions f)
  | interface n => interface n
  | union n => union n

/-- A definition without descriptions. -/
def undescribed (d : Definition) : Definition := d.mapDescriptions noText

end Definition

namespace Schema

def mapDescriptions (f : String → Option String) (s : Schema) : Schema where
  scalars := s.scalars.map (·.mapDescriptions f)
  enums := s.enums.map (·.mapDescriptions f)
  objects := s.objects.map (·.mapDescriptions f)
  inputs := s.inputs.map (·.mapDescriptions f)
  queryFields := s.queryFields.map (·.mapDescriptions f)
  mutationFields := s.mutationFields.map (·.mapDescriptions f)
  kinds := s.kinds

/-- A schema without descriptions. -/
def undescribed (s : Schema) : Schema := s.mapDescriptions noText

end Schema

/-! ## Changing them twice -/

section Undescribed

variable {f : String → Option String}

theorem bind_noText (o : Option String) : (o.bind f).bind noText = o.bind noText := by
  cases o with
  | none => rfl
  | some t => cases h : f t <;> simp [h, noText]

theorem InputValueDef.undescribed_mapDescriptions (v : InputValueDef) :
    (v.mapDescriptions f).mapDescriptions noText = v.mapDescriptions noText := by
  simp only [mapDescriptions, bind_noText]

theorem FieldDef.undescribed_mapDescriptions (d : FieldDef) :
    (d.mapDescriptions f).mapDescriptions noText = d.mapDescriptions noText := by
  simp only [mapDescriptions, bind_noText, List.map_map, Function.comp_def,
    InputValueDef.undescribed_mapDescriptions]

theorem Definition.undescribed_mapDescriptions (d : Definition) :
    (d.mapDescriptions f).undescribed = d.undescribed := by
  cases d <;> simp only [undescribed, mapDescriptions, ScalarDef.mapDescriptions,
    EnumDef.mapDescriptions, EnumValueDef.mapDescriptions, ObjectDef.mapDescriptions,
    InputDef.mapDescriptions, bind_noText, List.map_map, Function.comp_def,
    FieldDef.undescribed_mapDescriptions, InputValueDef.undescribed_mapDescriptions]

end Undescribed

/-! ## Schemas of changed definitions -/

section OfDefinitions

variable (f : String → Option String) (s : Schema) (d : Definition)

theorem Definition.name_mapDescriptions : (d.mapDescriptions f).name = d.name := by
  cases d <;> rfl

theorem Definition.kind_mapDescriptions : (d.mapDescriptions f).kind = d.kind := by
  cases d <;> rfl

namespace Schema

theorem record_mapDescriptions :
    (s.mapDescriptions f).record (d.mapDescriptions f) = (s.record d).mapDescriptions f := by
  cases d with
  | scalar d => simp [record, mapDescriptions, Definition.mapDescriptions]
  | enum d => simp [record, mapDescriptions, Definition.mapDescriptions]
  | input d => simp [record, mapDescriptions, Definition.mapDescriptions]
  | interface n => rfl
  | union n => rfl
  | object d =>
    have hn : (d.mapDescriptions f).name = d.name := rfl
    simp only [record, Definition.mapDescriptions, hn]
    split
    · rfl
    · split
      · rfl
      · simp [mapDescriptions]

theorem add_mapDescriptions :
    (s.mapDescriptions f).add (d.mapDescriptions f) = (s.add d).mapDescriptions f := by
  rw [add, record_mapDescriptions, Definition.name_mapDescriptions,
    Definition.kind_mapDescriptions]
  rfl

/-- Definitions with changed descriptions make up the schema with changed descriptions. -/
theorem ofDefinitions_mapDescriptions (ds : List Definition) :
    ofDefinitions (ds.map (·.mapDescriptions f)) = (ofDefinitions ds).mapDescriptions f := by
  rw [ofDefinitions, ofDefinitions, List.foldl_map]
  exact (List.foldl_hom (mapDescriptions f) (add_mapDescriptions f) :
    ds.foldl (fun s d => s.add (d.mapDescriptions f)) (empty.mapDescriptions f) = _)

end Schema

end OfDefinitions

end GraphClient
