import GraphClient.Proofs.Document.Grammar
import GraphClient.Proofs.Json
import GraphClient.Proofs.Schema.Descriptions
import GraphClient.Proofs.Token.BlockStrings

/-!
# What introspection data says

The definitions that introspection data stands for (`definitionOf`), and the data that GraphQL
allows (`WellFormed`): every name is a GraphQL name, every type reference is proper, every
default value is the text of a value, and descriptions are one line. Reasons of deprecation are
apart from it (`ReasonsOnLine`). Descriptions of arguments are not written, so they are no part
of what the data says. Other descriptions that end where they are closed (`Fits`) are read back
as `readText` says, so that the data reads as `described`.
-/

namespace GraphClient

/-- The text of one value on one line: its tokens make up the text and form a value. -/
def IsConstant (s : String) : Prop :=
  IsOneLine s ∧ (lex (Source.ofString s)).fault = none ∧
    spanText (lex (Source.ofString s)).tokens = s ∧
    Grammar.Literal (kindsOf (lex (Source.ofString s)).tokens)

namespace Introspection

/-! ## Meaning -/

/-- The type that a type reference stands for. -/
def typeRefOf (j : Json) : TypeRef :=
  if j.stringMember? "kind" = some "NON_NULL" then
    .nonNull (match _h : j.member? "ofType" with
      | some inner => typeRefOf inner
      | none => .named "Unknown")
  else if j.stringMember? "kind" = some "LIST" then
    .list (match _h : j.member? "ofType" with
      | some inner => typeRefOf inner
      | none => .named "Unknown")
  else .named ((j.stringMember? "name").getD "Unknown")
termination_by sizeOf j
decreasing_by all_goals exact Json.sizeOf_member?_lt _h

/-- The type of a field or an input value. -/
def elementType (j : Json) : TypeRef := ((j.member? "type").map typeRefOf).getD (.named "Unknown")

/-- A text that is there and not empty. -/
def textOf? (key : String) (j : Json) : Option String :=
  if textOf key j = "" then none else some (textOf key j)

def argumentOf (j : Json) : InputValueDef :=
  ⟨textOf "name" j, none, elementType j, textOf? "defaultValue" j⟩

def inputFieldOf (j : Json) : InputValueDef :=
  ⟨textOf "name" j, textOf? "description" j, elementType j, textOf? "defaultValue" j⟩

def fieldOf (j : Json) : FieldDef :=
  ⟨textOf "name" j, textOf? "description" j, elementType j,
    (j.objectsMember "args").map argumentOf⟩

def enumValueOf (j : Json) : EnumValueDef := ⟨textOf "name" j, textOf? "description" j⟩

def scalarOf (j : Json) : ScalarDef := ⟨textOf "name" j, textOf? "description" j⟩

def enumOf (j : Json) : EnumDef :=
  ⟨textOf "name" j, textOf? "description" j, (j.objectsMember "enumValues").map enumValueOf⟩

def inputOf (j : Json) : InputDef :=
  ⟨textOf "name" j, textOf? "description" j, (j.objectsMember "inputFields").map inputFieldOf⟩

def objectOf (j : Json) : ObjectDef :=
  ⟨textOf "name" j, textOf? "description" j, (j.objectsMember "fields").map fieldOf⟩

/-- The definition of a type of one of the six kinds. -/
def definitionOf (j : Json) : Definition :=
  if textOf "kind" j = "SCALAR" then .scalar (scalarOf j)
  else if textOf "kind" j = "ENUM" then .enum (enumOf j)
  else if textOf "kind" j = "INPUT_OBJECT" then .input (inputOf j)
  else if textOf "kind" j = "OBJECT" then .object (objectOf j)
  else if textOf "kind" j = "INTERFACE" then .interface (textOf "name" j)
  else .union (textOf "name" j)

/-- The names in a list of types. -/
def namesIn (key : String) (j : Json) : List String :=
  (j.objectsMember key).filterMap (·.stringMember? "name")

/-- The reason of deprecation that is written behind a field or an enum value. -/
def reason? (j : Json) : Option String :=
  if j.isTrueMember "isDeprecated" then j.stringMember? "deprecationReason" else none

/-! ## Well-formed data -/

structure InputValueWellFormed (j : Json) : Prop where
  name : IsName (textOf "name" j)
  type : (elementType j).IsProper
  typeName : IsName (elementType j).baseName
  default : ∀ s ∈ textOf? "defaultValue" j, IsConstant s

structure FieldWellFormed (j : Json) : Prop where
  name : IsName (textOf "name" j)
  description : IsOneLine (textOf "description" j)
  type : (elementType j).IsProper
  typeName : IsName (elementType j).baseName
  args : ∀ a ∈ j.objectsMember "args", InputValueWellFormed a

/-- A type of one of the six kinds that is not built in. -/
structure TypeWellFormed (j : Json) : Prop where
  name : IsName (textOf "name" j)
  notReserved : isReserved j = false
  notBuiltin : Schema.isBuiltinScalar (textOf "name" j) = false
  kind : textOf "kind" j ∈ kinds
  description : IsOneLine (textOf "description" j)
  enumValues : ∀ v ∈ j.objectsMember "enumValues",
    IsName (textOf "name" v) ∧ IsOneLine (textOf "description" v)
  inputFields : ∀ f ∈ j.objectsMember "inputFields",
    InputValueWellFormed f ∧ IsOneLine (textOf "description" f)
  fields : ∀ f ∈ j.objectsMember "fields", FieldWellFormed f
  interfaces : ∀ n ∈ namesIn "interfaces" j, IsName n
  members : ∀ n ∈ namesIn "possibleTypes" j, IsName n
  union : textOf "kind" j = "UNION" → namesIn "possibleTypes" j ≠ []

/-- Introspection data of well-formed types with different names. -/
structure WellFormed (schema : Json) : Prop where
  types : ∀ j ∈ schema.objectsMember "types", TypeWellFormed j
  nodup : ((schema.objectsMember "types").map (textOf "name")).Nodup

/-- The reasons of deprecation that are written for a type hold no line breaks. -/
def ReasonsOnLine (j : Json) : Prop :=
  (textOf "kind" j = "ENUM" → ∀ v ∈ j.objectsMember "enumValues", ∀ s ∈ reason? v, IsOneLine s) ∧
    (textOf "kind" j ∈ ["OBJECT", "INTERFACE"] →
      ∀ f ∈ j.objectsMember "fields", ∀ s ∈ reason? f, IsOneLine s)

/-! ## Descriptions of any form -/

/-- A description that ends where it is closed: at the quote that ends its line, or, if it has
several lines, at the three quotes behind them. -/
def Fits (text : String) : Prop :=
  if text.toList.contains '\n' then EndsClear text.toList else IsOneLine text

instance (text : String) : Decidable (Fits text) :=
  inferInstanceAs (Decidable (ite _ (EndsClear text.toList) (IsOneLine text)))

/-- What is read of a description, if anything. -/
def readText (text : String) : Option String :=
  let read := if text.toList.contains '\n' then String.ofList (Block.value text.toList) else text
  if read = "" then none else some read

/-- The definition of a type as its text is read. -/
def described (j : Json) : Definition := (definitionOf j).mapDescriptions readText

/-- The descriptions of a type and its members. -/
def descriptionsOf (j : Json) : List String :=
  (j :: (j.objectsMember "enumValues" ++ j.objectsMember "inputFields" ++
    j.objectsMember "fields")).map (textOf "description")

/-- All descriptions of a type end where they are closed. -/
def DescriptionsFit (j : Json) : Prop := ∀ d ∈ descriptionsOf j, Fits d

/-- A field that is well-formed but for its description. -/
structure FieldFormed (j : Json) : Prop where
  name : IsName (textOf "name" j)
  type : (elementType j).IsProper
  typeName : IsName (elementType j).baseName
  args : ∀ a ∈ j.objectsMember "args", InputValueWellFormed a

/-- A type that is well-formed but for its descriptions. -/
structure TypeFormed (j : Json) : Prop where
  name : IsName (textOf "name" j)
  notReserved : isReserved j = false
  notBuiltin : Schema.isBuiltinScalar (textOf "name" j) = false
  kind : textOf "kind" j ∈ kinds
  enumValues : ∀ v ∈ j.objectsMember "enumValues", IsName (textOf "name" v)
  inputFields : ∀ f ∈ j.objectsMember "inputFields", InputValueWellFormed f
  fields : ∀ f ∈ j.objectsMember "fields", FieldFormed f
  interfaces : ∀ n ∈ namesIn "interfaces" j, IsName n
  members : ∀ n ∈ namesIn "possibleTypes" j, IsName n
  union : textOf "kind" j = "UNION" → namesIn "possibleTypes" j ≠ []

section Descriptions

variable {j : Json} {text : String} {f : String → Option String}

theorem not_contains_of_oneLine (h : IsOneLine text) : text.toList.contains '\n' = false := by
  rw [List.contains_eq_mem, decide_eq_false_iff_not]
  intro hm
  exact absurd (h _ hm) (by decide)

theorem fits_of_oneLine (h : IsOneLine text) : Fits text := by
  rw [Fits, not_contains_of_oneLine h]
  exact h

theorem readText_textOf? (key : String) (j : Json) :
    (textOf? key j).bind readText = readText (textOf key j) := by
  rw [textOf?]
  split
  · rename_i he
    rw [he]
    rfl
  · rfl

/-- A line is read as it is. -/
theorem readText_line (h : IsOneLine (textOf "description" j)) :
    (textOf? "description" j).bind readText = textOf? "description" j := by
  rw [readText_textOf?, readText, not_contains_of_oneLine h]
  rfl

theorem mapDescriptions_arguments (js : List Json) :
    (js.map argumentOf).map (·.mapDescriptions f) = js.map argumentOf := by
  rw [List.map_map]
  rfl

theorem mapDescriptions_fieldOf (j : Json) : (fieldOf j).mapDescriptions f =
    { fieldOf j with description := (textOf? "description" j).bind f } := by
  rw [FieldDef.mapDescriptions, fieldOf, mapDescriptions_arguments]

theorem mem_descriptionsOf {d : String} : d ∈ descriptionsOf j ↔ d = textOf "description" j ∨
    (∃ v ∈ j.objectsMember "enumValues", textOf "description" v = d) ∨
    (∃ f ∈ j.objectsMember "inputFields", textOf "description" f = d) ∨
    ∃ f ∈ j.objectsMember "fields", textOf "description" f = d := by
  simp only [descriptionsOf, List.map_cons, List.map_append, List.mem_cons, List.mem_append,
    List.mem_map, or_assoc]

namespace DescriptionsFit

variable (h : DescriptionsFit j)
include h

theorem type : Fits (textOf "description" j) := h _ (mem_descriptionsOf.mpr (.inl rfl))

theorem enumValue {v : Json} (hv : v ∈ j.objectsMember "enumValues") :
    Fits (textOf "description" v) := h _ (mem_descriptionsOf.mpr (.inr (.inl ⟨v, hv, rfl⟩)))

theorem inputField {f : Json} (hf : f ∈ j.objectsMember "inputFields") :
    Fits (textOf "description" f) := h _ (mem_descriptionsOf.mpr (.inr (.inr (.inl ⟨f, hf, rfl⟩))))

theorem field {f : Json} (hf : f ∈ j.objectsMember "fields") :
    Fits (textOf "description" f) := h _ (mem_descriptionsOf.mpr (.inr (.inr (.inr ⟨f, hf, rfl⟩))))

end DescriptionsFit

theorem FieldWellFormed.formed (h : FieldWellFormed j) : FieldFormed j :=
  ⟨h.name, h.type, h.typeName, h.args⟩

namespace TypeWellFormed

variable (h : TypeWellFormed j)
include h

theorem formed : TypeFormed j where
  name := h.name
  notReserved := h.notReserved
  notBuiltin := h.notBuiltin
  kind := h.kind
  enumValues v hv := (h.enumValues v hv).1
  inputFields f hf := (h.inputFields f hf).1
  fields f hf := (h.fields f hf).formed
  interfaces := h.interfaces
  members := h.members
  union := h.union

theorem fits : DescriptionsFit j := by
  intro d hd
  rcases mem_descriptionsOf.mp hd with rfl | ⟨v, hv, rfl⟩ | ⟨f, hf, rfl⟩ | ⟨f, hf, rfl⟩
  · exact fits_of_oneLine h.description
  · exact fits_of_oneLine (h.enumValues v hv).2
  · exact fits_of_oneLine (h.inputFields f hf).2
  · exact fits_of_oneLine (h.fields f hf).description

/-- Descriptions on one line are read as they are. -/
theorem described_eq : described j = definitionOf j := by
  have hdesc := readText_line h.description
  have hvalues : ((j.objectsMember "enumValues").map enumValueOf).map (·.mapDescriptions readText) =
      (j.objectsMember "enumValues").map enumValueOf := by
    rw [List.map_map, List.map_inj_left]
    intro v hv
    simp only [Function.comp, EnumValueDef.mapDescriptions, enumValueOf,
      readText_line (h.enumValues v hv).2]
  have hinputs : ((j.objectsMember "inputFields").map inputFieldOf).map
      (·.mapDescriptions readText) = (j.objectsMember "inputFields").map inputFieldOf := by
    rw [List.map_map, List.map_inj_left]
    intro f hf
    simp only [Function.comp, InputValueDef.mapDescriptions, inputFieldOf,
      readText_line (h.inputFields f hf).2]
  have hfields : ((j.objectsMember "fields").map fieldOf).map (·.mapDescriptions readText) =
      (j.objectsMember "fields").map fieldOf := by
    rw [List.map_map, List.map_inj_left]
    intro f hf
    simp only [Function.comp, mapDescriptions_fieldOf, readText_line (h.fields f hf).description]
    rfl
  rw [described, definitionOf]
  repeat' split
  · simp only [Definition.mapDescriptions, ScalarDef.mapDescriptions, scalarOf, hdesc]
  · simp only [Definition.mapDescriptions, EnumDef.mapDescriptions, enumOf, hdesc, hvalues]
  · simp only [Definition.mapDescriptions, InputDef.mapDescriptions, inputOf, hdesc, hinputs]
  · simp only [Definition.mapDescriptions, ObjectDef.mapDescriptions, objectOf, hdesc, hfields]
  · rfl
  · rfl

end TypeWellFormed

end Descriptions

/-! ## Rendering -/

theorem typeText_unfold (j : Json) :
    typeText j =
      if j.stringMember? "kind" = some "NON_NULL" then
        ((j.member? "ofType").map typeText).getD "Unknown" ++ "!"
      else if j.stringMember? "kind" = some "LIST" then
        "[" ++ ((j.member? "ofType").map typeText).getD "Unknown" ++ "]"
      else (j.stringMember? "name").getD "Unknown" := by
  rw [typeText]
  congr 2
  · split <;> rename_i h <;> rw [h] <;> rfl
  · congr 2
    split <;> rename_i h <;> rw [h] <;> rfl

theorem typeRefOf_unfold (j : Json) :
    typeRefOf j =
      if j.stringMember? "kind" = some "NON_NULL" then
        .nonNull (((j.member? "ofType").map typeRefOf).getD (.named "Unknown"))
      else if j.stringMember? "kind" = some "LIST" then
        .list (((j.member? "ofType").map typeRefOf).getD (.named "Unknown"))
      else .named ((j.stringMember? "name").getD "Unknown") := by
  rw [typeRefOf]
  congr 2
  · split <;> rename_i h <;> rw [h] <;> rfl
  · congr 1
    split <;> rename_i h <;> rw [h] <;> rfl

theorem typeText_eq (j : Json) : typeText j = (typeRefOf j).render := by
  have hinner : ((j.member? "ofType").map typeText).getD "Unknown" =
      (((j.member? "ofType").map typeRefOf).getD (.named "Unknown")).render := by
    cases h : j.member? "ofType" with
    | none => rfl
    | some inner => exact typeText_eq inner
  rw [typeText_unfold, typeRefOf_unfold, hinner]
  split
  · rfl
  · split <;> rfl
termination_by sizeOf j
decreasing_by exact Json.sizeOf_member?_lt h

theorem typeOf_eq (j : Json) : typeOf j = (elementType j).render := by
  rw [typeOf, elementType]
  cases j.member? "type" with
  | none => rfl
  | some t => exact typeText_eq t

end Introspection

/-! ## Data with the same members -/

namespace Json.SameBut

open Introspection

variable {keys : List String} {key : String} {i j : Json} (h : SameBut keys i j)
include h

theorem textOf (hk : key ∉ keys) : textOf key i = textOf key j := by
  rw [Introspection.textOf, Introspection.textOf, stringMember?, stringMember?, h key hk]

theorem textOf? (hk : key ∉ keys) : textOf? key i = textOf? key j := by
  rw [Introspection.textOf?, Introspection.textOf?, h.textOf hk]

theorem namesIn (hk : key ∉ keys) : namesIn key i = namesIn key j := by
  rw [Introspection.namesIn, Introspection.namesIn, h.objectsMember hk]

theorem elementType (hk : "type" ∉ keys) : elementType i = elementType j := by
  rw [Introspection.elementType, Introspection.elementType, h _ hk]

theorem reason? (hk : ∀ key ∈ ["isDeprecated", "deprecationReason"], key ∉ keys) :
    reason? i = reason? j := by
  rw [Introspection.reason?, Introspection.reason?, isTrueMember, isTrueMember, stringMember?,
    stringMember?, h _ (hk _ (by decide)), h _ (hk _ (by decide))]

end Json.SameBut

end GraphClient
