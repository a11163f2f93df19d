import GraphClient.Proofs.Document.Followed
import GraphClient.Proofs.Introspection.RoundTrip

/-!
# Descriptions are confined

`undescribed` is a schema without the descriptions of its types, their members and arguments.
A schema is `Confined` if it is read without warnings and, but for its descriptions, as the
schema without them. So it is if all its descriptions end where they are closed
(`confined_of_fit`), and a scalar whose description does not is a schema that is read with
warnings (`Calendar.warnings_of_unfit`). A schema with several types may be confined all the
same, since the next description may close the one that is not.
-/

namespace GraphClient

namespace Introspection

/-! ## Schemas without descriptions -/

def undescribedMember (j : Json) : Json := j.without ["description"]

def undescribedField (j : Json) : Json :=
  (undescribedMember j).mapMember "args" (.mapItems undescribedMember)

def undescribedType (j : Json) : Json :=
  (((undescribedMember j).mapMember "enumValues" (.mapItems undescribedMember)).mapMember
    "inputFields" (.mapItems undescribedMember)).mapMember "fields" (.mapItems undescribedField)

/-- A schema without descriptions. -/
def undescribed (schema : Json) : Json := schema.mapMember "types" (.mapItems undescribedType)

/-- The descriptions of all types and their members. -/
def descriptions (schema : Json) : List String :=
  (schema.objectsMember "types").flatMap descriptionsOf

/-- A schema that is read as without descriptions, but for these. -/
def Confined (schema : Json) : Prop :=
  (Document.ofString (sdl schema)).warnings = [] ∧
    (Document.ofString (sdl schema)).schema.undescribed =
      (Document.ofString (sdl (undescribed schema))).schema

section Undescribed

variable {j schema : Json}

theorem undescribedMember_isObject (j : Json) : (undescribedMember j).isObject = j.isObject := by
  cases j <;> rfl

theorem undescribedField_isObject (j : Json) : (undescribedField j).isObject = j.isObject := by
  cases j <;> rfl

theorem undescribedType_isObject (j : Json) : (undescribedType j).isObject = j.isObject := by
  cases j <;> rfl

theorem same_undescribedMember : Json.SameBut ["description"] (undescribedMember j) j :=
  Json.sameBut_without

theorem same_undescribedField : Json.SameBut ["args", "description"] (undescribedField j) j :=
  same_undescribedMember.mapMember

theorem same_undescribedType :
    Json.SameBut ["fields", "inputFields", "enumValues", "description"] (undescribedType j) j :=
  same_undescribedMember.mapMember.mapMember.mapMember

theorem textOf?_description (h : j.member? "description" = none) :
    textOf? "description" j = none := by
  rw [textOf?, textOf, Json.stringMember?, h]
  rfl

theorem description_undescribedMember : textOf? "description" (undescribedMember j) = none :=
  textOf?_description (Json.member?_without_self (by decide))

theorem description_undescribedField : textOf? "description" (undescribedField j) = none := by
  apply textOf?_description
  rw [undescribedField, Json.member?_mapMember (by decide)]
  exact Json.member?_without_self (by decide)

theorem description_undescribedType : textOf? "description" (undescribedType j) = none := by
  apply textOf?_description
  rw [undescribedType, Json.member?_mapMember (by decide), Json.member?_mapMember (by decide),
    Json.member?_mapMember (by decide)]
  exact Json.member?_without_self (by decide)

theorem args_undescribedField : (undescribedField j).objectsMember "args" =
    (j.objectsMember "args").map undescribedMember := by
  rw [undescribedField, Json.objectsMember_map undescribedMember_isObject,
    same_undescribedMember.objectsMember (by decide)]

theorem fields_undescribedType : (undescribedType j).objectsMember "fields" =
    (j.objectsMember "fields").map undescribedField := by
  rw [undescribedType, Json.objectsMember_map undescribedField_isObject,
    same_undescribedMember.mapMember.mapMember.objectsMember (by decide)]

theorem inputFields_undescribedType : (undescribedType j).objectsMember "inputFields" =
    (j.objectsMember "inputFields").map undescribedMember := by
  have hsame : Json.SameBut ["fields"] (undescribedType j) _ := .mapMember fun _ _ => rfl
  rw [hsame.objectsMember (by decide), Json.objectsMember_map undescribedMember_isObject,
    same_undescribedMember.mapMember.objectsMember (by decide)]

theorem enumValues_undescribedType : (undescribedType j).objectsMember "enumValues" =
    (j.objectsMember "enumValues").map undescribedMember := by
  have hsame : Json.SameBut ["fields", "inputFields"] (undescribedType j) _ :=
    .mapMember (.mapMember fun _ _ => rfl)
  rw [hsame.objectsMember (by decide), Json.objectsMember_map undescribedMember_isObject,
    same_undescribedMember.objectsMember (by decide)]

theorem types_undescribed : (undescribed schema).objectsMember "types" =
    (schema.objectsMember "types").map undescribedType :=
  Json.objectsMember_map undescribedType_isObject

theorem sorted_undescribed : sorted (undescribed schema) = (sorted schema).map undescribedType :=
  sorted_map undescribedType_isObject (fun _ => same_undescribedType.textOf (by decide))
    fun _ => same_undescribedType.textOf (by decide)

/-! ## Meaning without descriptions -/

theorem bind_noText_eq_none (o : Option String) : o.bind noText = none := by
  cases o <;> rfl

theorem argumentOf_undescribedMember : argumentOf (undescribedMember j) = argumentOf j := by
  rw [argumentOf, argumentOf, same_undescribedMember.textOf (by decide),
    same_undescribedMember.textOf? (by decide), same_undescribedMember.elementType (by decide)]

theorem inputFieldOf_undescribedMember :
    inputFieldOf (undescribedMember j) = (inputFieldOf j).mapDescriptions noText := by
  rw [inputFieldOf, description_undescribedMember, same_undescribedMember.textOf (by decide),
    same_undescribedMember.textOf? (by decide), same_undescribedMember.elementType (by decide),
    InputValueDef.mapDescriptions, bind_noText_eq_none]
  rfl

theorem enumValueOf_undescribedMember :
    enumValueOf (undescribedMember j) = (enumValueOf j).mapDescriptions noText := by
  rw [enumValueOf, description_undescribedMember, same_undescribedMember.textOf (by decide),
    EnumValueDef.mapDescriptions, bind_noText_eq_none]
  rfl

theorem fieldOf_undescribedField :
    fieldOf (undescribedField j) = (fieldOf j).mapDescriptions noText := by
  have ha : argumentOf ∘ undescribedMember = argumentOf :=
    funext fun _ => argumentOf_undescribedMember
  rw [fieldOf, description_undescribedField, same_undescribedField.textOf (by decide),
    same_undescribedField.elementType (by decide), args_undescribedField, List.map_map, ha,
    mapDescriptions_fieldOf, bind_noText_eq_none]
  rfl

theorem definitionOf_undescribedType :
    definitionOf (undescribedType j) = (definitionOf j).undescribed := by
  have hk : textOf "kind" (undescribedType j) = textOf "kind" j :=
    same_undescribedType.textOf (by decide)
  have hn : textOf "name" (undescribedType j) = textOf "name" j :=
    same_undescribedType.textOf (by decide)
  have hd : textOf? "description" (undescribedType j) = none := description_undescribedType
  have hvalues : enumValueOf ∘ undescribedMember =
      EnumValueDef.mapDescriptions noText ∘ enumValueOf :=
    funext fun _ => enumValueOf_undescribedMember
  have hinputs : inputFieldOf ∘ undescribedMember =
      InputValueDef.mapDescriptions noText ∘ inputFieldOf :=
    funext fun _ => inputFieldOf_undescribedMember
  have hfields : fieldOf ∘ undescribedField = FieldDef.mapDescriptions noText ∘ fieldOf :=
    funext fun _ => fieldOf_undescribedField
  rw [definitionOf, definitionOf, hk]
  repeat' split
  · simp only [scalarOf, hn, hd, Definition.undescribed, Definition.mapDescriptions,
      ScalarDef.mapDescriptions, bind_noText_eq_none]
  · simp only [enumOf, hn, hd, Definition.undescribed, Definition.mapDescriptions,
      EnumDef.mapDescriptions, bind_noText_eq_none, enumValues_undescribedType, List.map_map,
      hvalues]
  · simp only [inputOf, hn, hd, Definition.undescribed, Definition.mapDescriptions,
      InputDef.mapDescriptions, bind_noText_eq_none, inputFields_undescribedType, List.map_map,
      hinputs]
  · simp only [objectOf, hn, hd, Definition.undescribed, Definition.mapDescriptions,
      ObjectDef.mapDescriptions, bind_noText_eq_none, fields_undescribedType, List.map_map, hfields]
  · rw [hn]
    rfl
  · rw [hn]
    rfl

/-! ## Formed data -/

theorem inputValueWellFormed_of_undescribed (h : InputValueWellFormed (undescribedMember j)) :
    InputValueWellFormed j := by
  obtain ⟨hname, htype, htypeName, hdefault⟩ := h
  rw [same_undescribedMember.textOf (by decide)] at hname
  rw [same_undescribedMember.elementType (by decide)] at htype htypeName
  rw [same_undescribedMember.textOf? (by decide)] at hdefault
  exact ⟨hname, htype, htypeName, hdefault⟩

theorem fieldFormed_of_undescribed (h : FieldWellFormed (undescribedField j)) : FieldFormed j := by
  obtain ⟨hname, -, htype, htypeName, hargs⟩ := h
  rw [same_undescribedField.textOf (by decide)] at hname
  rw [same_undescribedField.elementType (by decide)] at htype htypeName
  rw [args_undescribedField, List.forall_mem_map] at hargs
  exact ⟨hname, htype, htypeName, fun a ha => inputValueWellFormed_of_undescribed (hargs a ha)⟩

theorem typeFormed_of_undescribed (h : TypeWellFormed (undescribedType j)) : TypeFormed j := by
  obtain ⟨hname, hreserved, hbuiltin, hkind, -, hvalues, hinputs, hfields, hinterfaces, hmembers,
    hunion⟩ := h
  rw [same_undescribedType.textOf (by decide)] at hname hbuiltin hkind hunion
  rw [isReserved, same_undescribedType.textOf (by decide)] at hreserved
  rw [same_undescribedType.namesIn (by decide)] at hinterfaces hmembers hunion
  rw [enumValues_undescribedType, List.forall_mem_map] at hvalues
  rw [inputFields_undescribedType, List.forall_mem_map] at hinputs
  rw [fields_undescribedType, List.forall_mem_map] at hfields
  refine ⟨hname, hreserved, hbuiltin, hkind, fun v hv => ?_,
    fun f hf => inputValueWellFormed_of_undescribed (hinputs f hf).1,
    fun f hf => fieldFormed_of_undescribed (hfields f hf), hinterfaces, hmembers, hunion⟩
  have hn := (hvalues v hv).1
  rwa [same_undescribedMember.textOf (by decide)] at hn

theorem reasonsOnLine_undescribedType (h : ReasonsOnLine j) :
    ReasonsOnLine (undescribedType j) := by
  have hmember : ∀ i, reason? (undescribedMember i) = reason? i := fun _ =>
    same_undescribedMember.reason? (by decide)
  have hfield : ∀ i, reason? (undescribedField i) = reason? i := fun _ =>
    same_undescribedField.reason? (by decide)
  rw [ReasonsOnLine, same_undescribedType.textOf (by decide), enumValues_undescribedType,
    fields_undescribedType, List.forall_mem_map, List.forall_mem_map]
  simp only [hmember, hfield]
  exact h

/-- A schema whose descriptions end where they are closed is confined. -/
theorem confined_of_fit (h : WellFormed (undescribed schema))
    (hr : ∀ j ∈ schema.objectsMember "types", ReasonsOnLine j)
    (hd : ∀ d ∈ descriptions schema, Fits d) : Confined schema := by
  have htypes := h.types
  rw [types_undescribed, List.forall_mem_map] at htypes
  have hfit : ∀ j ∈ schema.objectsMember "types", DescriptionsFit j := fun j hj d hm =>
    hd d (List.mem_flatMap.mpr ⟨j, hj, hm⟩)
  have hreasons : ∀ j ∈ (undescribed schema).objectsMember "types", ReasonsOnLine j := by
    rw [types_undescribed, List.forall_mem_map]
    exact fun j hj => reasonsOnLine_undescribedType (hr j hj)
  have hdef : ∀ j, (described j).mapDescriptions noText = definitionOf (undescribedType j) :=
    fun j => by
      rw [definitionOf_undescribedType, described]
      exact Definition.undescribed_mapDescriptions _
  rw [Confined, ofString_described (fun j hj => typeFormed_of_undescribed (htypes j hj)) hfit hr,
    ofString_sdl h hreasons, sorted_undescribed]
  refine ⟨rfl, ?_⟩
  rw [Document.schema, Document.schema, Schema.undescribed, ← Schema.ofDefinitions_mapDescriptions,
    List.map_map, List.map_map]
  exact congrArg _ (List.map_congr_left fun j _ => hdef j)

end Undescribed

/-! ## Descriptions that do not fit -/

/-- Tokens at whose start no definition can be read are not read without warnings. -/
theorem warnings_of_start {ts : List Token} (hne : ts ≠ []) (hk : Parse.startKeyword? ts = none) :
    (Document.ofTokens ts).warnings ≠ [] := by
  intro hw
  obtain ⟨ws, d, ds, hd⟩ := Parse.answers_definitions ⟨0, ts⟩
  rw [Document.ofTokens_eq hd] at hw
  obtain rfl : ws = [] := hw
  obtain ⟨e, a, as, hentry, -, -⟩ := Parse.definitions_cons hd hne
  obtain ⟨b, line, hb⟩ := Parse.description_apply ⟨0, ts⟩
  have hdef := Parse.definition_of_entry hentry
  have hnone : (afterDescription ts).head?.bind Token.keyword? = none := hk
  rw [Parse.definition_apply hb, hnone] at hdef
  cases hdef

/-- A text whose tokens are not read without warnings is not so either. -/
theorem warnings_of_tokens {text : String}
    (h : (Document.ofTokens (lex (Source.ofString text)).tokens).warnings ≠ []) :
    (Document.ofString text).warnings ≠ [] := by
  by_cases hf : (lex (Source.ofString text)).fault = none
  · rw [Document.ofString, tokenize_faultless hf]
    exact h
  · exact warnings_of_fault hf

/-- A quote at the end of a line ends no string. -/
theorem read_lastQuote (more : Source) :
    read (.whole '"') (.whole '\n' :: more) = .fault .unterminated 1 := by
  show readQuoted (.whole '\n' :: more) = _
  rw [readQuoted_string (by simp), readString, if_neg (by decide), if_neg (by decide),
    if_pos (by decide)]

/-- A string behind a description starts no definition. -/
theorem startKeyword?_strings {t u : Token} {ts : List Token} (ht : t.string?.isSome)
    (hu : u.string?.isSome) : Parse.startKeyword? (t :: u :: ts) = none := by
  have hname : u.name? = none := by
    cases hk : u.kind <;> simp [Token.string?, Token.name?, hk] at hu ⊢
  have hafter : afterDescription (t :: u :: ts) = u :: ts := if_pos ht
  rw [Parse.startKeyword?, hafter, List.head?_cons, Option.bind_some, Token.keyword?, hname]
  rfl

/-- A block string that does not end clear is not read without warnings. -/
theorem warnings_of_unclear {text : String} {cs : List Char} {more : Source}
    (h : ¬ EndsClear cs) (hr : Quoteless (.whole '\n' :: more))
    (ht : Source.ofString text = blockFront cs ++ threeQuotes ++ .whole '\n' :: more) :
    (Document.ofString text).warnings ≠ [] := by
  rcases block_unclear h hr with ⟨cells, cause, passed, hcells, hf⟩ |
      ⟨front, left, hfront, hleft, hne, hscan⟩
  · apply warnings_of_fault
    rw [ht, hcells, lex, lexFrom, hf]
    exact Option.some_ne_none _
  · obtain ⟨t, hstring, hs⟩ := hscan ⟨[], Place.start⟩
    have hlex := hs.lexFrom 0
    rw [hfront, List.append_assoc] at ht
    rcases hleft with rfl | rfl | rfl
    · exact absurd rfl hne
    · apply warnings_of_fault
      rw [ht, lex, hlex, List.singleton_append, lexFrom, read_lastQuote]
      exact Option.some_ne_none _
    · have hempty := (@scans_quoted (.whole '\n' :: more) "" (.past ⟨[], Place.start⟩ front)
        (by decide) (delimits_cons (by decide))).lexFrom (0 + front.width)
      apply warnings_of_tokens
      rw [ht, lex, hlex]
      refine warnings_of_start (List.cons_ne_nil _ _) ?_
      have hquotes : quoted "" = [.whole '"', .whole '"'] := by decide
      rw [hquotes] at hempty
      rw [hempty]
      exact startKeyword?_strings hstring rfl

namespace Calendar

/-- A scalar with a description. -/
def date (description : String) : Json :=
  .object [("kind", .string "SCALAR"), ("name", .string "Date"),
    ("description", .string description)]

def schema (description : String) : Json := .object [("types", .array [date description])]

variable (d : String)

theorem descriptions_schema : descriptions (schema d) = [d] := rfl

theorem sdl_schema : sdl (schema d) = describe "" (date d) ++ "scalar Date\n\n" := by
  have hsorted : sorted (schema d) = [date d] := by
    have htypes : (schema d).objectsMember "types" = [date d] := rfl
    have hname : (!"__".toList.isPrefixOf "Date".toList) = true := by decide
    have hkept : [date d].filter (!isReserved ·) = [date d] :=
      List.filter_eq_self.mpr (List.forall_mem_singleton.mpr hname)
    rw [sorted, htypes, hkept, List.mergeSort_singleton]
  have hdate : typeDefinition (date d) =
      describe "" (date d) ++ "scalar " ++ "Date" ++ "\n\n" := rfl
  rw [sdl, hsorted, List.map_singleton, hdate]
  simp only [String.join_cons, String.join_nil, String.append_empty, String.append_assoc]
  rfl

theorem wellFormed_undescribed : WellFormed (undescribed (schema d)) := by
  have hdate : TypeWellFormed (undescribedType (date d)) := ⟨(by decide : IsName "Date"),
    (by decide : "__".toList.isPrefixOf "Date".toList = false),
    (by decide : Schema.isBuiltinScalar "Date" = false), (by decide : "SCALAR" ∈ kinds),
    (by decide : IsOneLine ""), nofun, nofun, nofun, nofun, nofun,
    fun h => absurd h (by decide : "SCALAR" ≠ "UNION")⟩
  exact ⟨List.forall_mem_singleton.mpr hdate, List.nodup_singleton _⟩

theorem warnings_of_unfit (h : ¬ Fits d) : (Document.ofString (sdl (schema d))).warnings ≠ [] := by
  have hd : textOf "description" (date d) = d := rfl
  rw [Fits] at h
  split at h
  · rename_i hn
    have hne : d ≠ "" := fun he => by
      rw [he] at hn
      cases hn
    have hr : Quoteless (.whole '\n' :: Source.ofString "scalar Date\n\n") := by decide
    refine warnings_of_unclear h hr ?_
    simp only [sdl_schema, describe, hd, hn, if_neg hne, if_true]
    rw [ofString_append, ofString_block, List.append_assoc]
    rfl
  · rename_i hn
    have hne : d ≠ "" := fun he => h (by simp [he, IsOneLine])
    refine warnings_of_breaks ?_
    have hclose : "\" " ++ "scalar Date\n\n" = "\"" ++ " scalar Date\n\n" := rfl
    simp only [sdl_schema, describe, hd, hn, if_neg hne]
    rw [if_neg Bool.false_ne_true, String.append_assoc, hclose, ofString_quotes]
    exact .append (.quoted h)

end Calendar

/-- Descriptions of a class are confined in every schema just if each of them ends where it is
closed. -/
theorem descriptions_confined_iff (D : String → Prop) :
    (∀ schema, WellFormed (undescribed schema) →
      (∀ j ∈ schema.objectsMember "types", ReasonsOnLine j) →
      (∀ d ∈ descriptions schema, D d) → Confined schema) ↔ ∀ d, D d → Fits d := by
  refine ⟨fun h d hd => ?_, fun h schema hw hr hs =>
    confined_of_fit hw hr fun d hd => h d (hs d hd)⟩
  by_contra hfit
  have hdesc : ∀ e ∈ descriptions (Calendar.schema d), D e := by
    rw [Calendar.descriptions_schema]
    exact List.forall_mem_singleton.mpr hd
  have hr : ∀ j ∈ (Calendar.schema d).objectsMember "types", ReasonsOnLine j :=
    List.forall_mem_singleton.mpr ⟨nofun, nofun⟩
  exact Calendar.warnings_of_unfit d hfit
    (h (Calendar.schema d) (Calendar.wellFormed_undescribed d) hr hdesc).1

end Introspection

end GraphClient
