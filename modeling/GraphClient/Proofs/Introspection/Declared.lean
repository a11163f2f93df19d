import GraphClient.Proofs.Document.Accepts
import GraphClient.Proofs.Document.Followed
import GraphClient.Proofs.Introspection.Blocks

/-!
# Types of introspection data are declared

The text of a well-formed type spells tokens that declare the definition it stands for, with
its descriptions as they are read (`Declares`): they start a definition, and a reader of
definitions takes them and no more. If one of its reasons of deprecation has a line break, its
text is broken instead. So it is for the text of several types (`types_span`, `types_break`).
-/

namespace GraphClient

open Grammar

/-- The tokens of a definition, as they are read in front of the next one. -/
def Declares (ts : List Token) (d : GraphClient.Definition) : Prop :=
  (∀ rest, startsDefinition (ts ++ rest) = true) ∧
    ∀ line rest, AtDefinition rest → Parse.Reads Parse.definition line ts rest (some d, none)

/-- A keyword and a name behind a description declare what the body behind them reads. -/
theorem declares_of_body {ds ts : List Token} {d : Option String} {k t : Token} {w n : String}
    {keyword : Keyword} {r : GraphClient.Definition} (hd : Description ds d)
    (hk : k.kind = .name w) (hw : Keyword.ofText? w = some keyword) (ht : t.kind = .name n)
    (hb : ∀ rest, AtDefinition rest →
      Parse.Reads (Parse.body d keyword) k.line (t :: ts) rest (some r, none)) :
    Declares (ds ++ k :: t :: ts) r := by
  refine ⟨fun rest => ?_, fun line rest hr => Parse.definition_reads hd hk hw (hb rest hr)⟩
  rw [List.append_assoc]
  exact startsDefinition_keyword hd hk hw (by simp [isName_of_name ht])

/-- Declared definitions are read in front of others. -/
theorem definitions_declared {ts us : List Token} {ds es : List GraphClient.Definition}
    {ws : List Warning} {c : Cursor} {line : Nat} (h : Many Declares ts ds) (hu : AtDefinition us)
    (hes : Parse.definitions ⟨lastLine line ts, us⟩ = ⟨ws, c, .ok es⟩) :
    Parse.definitions ⟨line, ts ++ us⟩ = ⟨ws, c, .ok (ds ++ es)⟩ := by
  induction h generalizing line with
  | nil => exact hes
  | @cons vs xs d ds hd hds ih =>
    have hne : vs ≠ [] := by
      rintro rfl
      exact absurd (hd.1 []) (by decide)
    have hnext : AtDefinition (xs ++ us) := by
      cases hds with
      | nil => exact hu
      | cons hx _ =>
        rw [List.append_assoc]
        exact fun _ => hx.1 _
    have hentry : Parse.entry ⟨line, vs ++ (xs ++ us)⟩ =
        ⟨[], ⟨lastLine line vs, xs ++ us⟩, .ok (some d)⟩ :=
      Parse.entry_reads (hd.2 line _ hnext)
    have hlt := Parse.length_lt_append hne (xs ++ us)
    rw [lastLine_append] at hes
    rw [List.append_assoc, Parse.definitions_step hentry hlt, ih hes]
    show Outcome.mk ([] ++ (ws ++ [])) c _ = _
    rw [List.nil_append, List.append_nil]
    rfl

/-- Declared definitions are what a document of their tokens holds. -/
theorem ofTokens_declared {ts : List Token} {ds : List GraphClient.Definition}
    (h : Many Declares ts ds) : Document.ofTokens ts = ⟨ds, []⟩ := by
  have hes : Parse.definitions ⟨lastLine 0 ts, []⟩ = ⟨[], ⟨lastLine 0 ts, []⟩, .ok []⟩ :=
    Parse.definitions_stop rfl
  have hds := definitions_declared h atDefinition_nil hes
  rw [List.append_nil, List.append_nil] at hds
  exact Document.ofTokens_eq hds

namespace Introspection

/-! ## Enum values on their lines -/

section EnumValues

variable {line start : Nat} {us rest : List Token} {c : Token} {values : List EnumValueDef}

theorem valueTokens_avoids {ps : List Punctuator} {ts : List Token} {v : EnumValueDef}
    (h : ValueTokens ts v) : Avoids ps (ts ++ rest) := by
  obtain ⟨ds, t, dirs, rfl, hd, ht, -⟩ := h
  rw [List.append_assoc]
  exact hd.avoids ht

/-- What stands behind the tokens of a row is another row or the closing brace. -/
theorem rows_next (h : Rows ValueTokens line us values) (hc : c.kind = .punctuator .braceR) :
    Avoids [.atSign, .parenL] (us ++ c :: rest) ∧
      ∀ t ∈ (us ++ c :: rest).head?, t.isName = false ∨ line ≤ t.line := by
  have hle := h.line_le
  cases h with
  | nil =>
    refine ⟨avoids_of_kind hc (by decide), fun t ht => .inl ?_⟩
    cases ht
    simp [Token.isName, Token.name?, hc]
  | @cons _ next ts us v vs hv _ _ _ =>
    refine ⟨?_, fun t ht => .inr ?_⟩
    · rw [List.append_assoc]
      exact valueTokens_avoids hv
    · obtain ⟨ds, k, dirs, rfl, -⟩ := hv
      apply hle t
      cases ds with
      | nil => cases ht; simp
      | cons d ds => cases ht; simp

/-- An enum value keeps its block going, whatever its name: no name follows on its line. -/
theorem continuesBlock_of_row {ds dirs : List Token} {d : Option String} {t : Token} {n : String}
    (hd : Description ds d) (ht : t.kind = .name n) (hdirs : Directives (kindsOf dirs))
    (hr : ∀ u ∈ rest.head?, u.isName = false ∨ t.line + 1 ≤ u.line) :
    Parse.continuesBlock ⟨start, ds ++ t :: (dirs ++ rest)⟩ = true := by
  have hnext : ∀ u ∈ (dirs ++ rest).head?, u.isName = false ∨ t.line + 1 ≤ u.line := by
    rcases hdirs.free.nil_or_cons with rfl | ⟨a, us, rfl, ha⟩
    · exact hr
    · intro u hu
      cases hu
      exact .inl (by simp [Token.isName, Token.name?, ha])
  have hi : interruptsBlock ⟨start, ds ++ t :: (dirs ++ rest)⟩ = false := by
    refine Parse.interruptsBlock_eq_false fun k m vs e => ?_
    rw [afterDescription_describes hd ht] at e
    obtain ⟨rfl, hv⟩ := List.cons.inj e
    rcases hnext m (by rw [hv]; rfl) with hm | hm
    · exact .inr (.inl hm)
    · exact .inr (.inr (by omega))
  rw [Parse.continuesBlock, hi, hd.continues ht]
  rfl

theorem valueRows_members {owner : String} (h : Rows ValueTokens line us values)
    (hc : c.kind = .punctuator .braceR) :
    Parse.Members Parse.continuesBlock (Parse.member owner Parse.enumValue) (c :: rest) start us
      values := by
  induction h generalizing start with
  | nil => exact .done (Parse.continuesBlock_closing hc)
  | @cons line next ts us v vs hv hl _ hrows ih =>
    obtain ⟨ha, hn⟩ := @rows_next _ _ rest _ _ hrows hc
    obtain ⟨ds, t, dirs, rfl, hd, ht, hdirs⟩ := hv
    have htl : t.line < next := (hl t (by simp)).2
    have hcont : Parse.continuesBlock ⟨start, (ds ++ t :: dirs) ++ (us ++ c :: rest)⟩ = true := by
      rw [List.append_assoc]
      exact continuesBlock_of_row hd ht hdirs fun u hu => (hn u hu).imp_right (by omega)
    exact .more hcont (by simp) (Parse.member_reads (Parse.enumValue_reads hd ht hdirs.free ha)) ih

theorem valueBlock_reads {owner : String} {ts : List Token} (h : RowBlock ValueTokens ts values) :
    Parse.Reads (Parse.block owner Parse.enumValue) line ts rest values := by
  obtain ⟨o, us, c, rfl, ho, hrows, hc⟩ := h
  exact Parse.block_reads ho (valueRows_members hrows hc) hc

end EnumValues

/-! ## Types -/

section Types

variable {j : Json}

/-- The description of a type, its keyword and its name. -/
def opening (w : String) (j : Json) : String := describe "" j ++ (w ++ " ") ++ textOf "name" j

theorem ofString_opening (w : String) (j : Json) (b : Source) :
    Source.ofString (opening w j) ++ b = Source.ofString (describe "" j) ++
      (Source.ofString w ++ (Source.ofString " " ++ Source.ofString (textOf "name" j)) ++ b) := by
  simp only [opening, ofString_append, List.append_assoc]

theorem naming_spells {w : String} (hw : IsName w) (h : TypeFormed j) :
    Spells Delimits
      (Source.ofString w ++ (Source.ofString " " ++ Source.ofString (textOf "name" j)))
      fun ts => ∃ k t, ts = [k, t] ∧ k.kind = .name w ∧ t.kind = .name (textOf "name" j) := by
  have hname : Spells Delimits (Source.ofString " " ++ Source.ofString (textOf "name" j))
      (OfKinds [.name (textOf "name" j)]) := .cons_blank (.inl rfl) (.name h.name)
  refine (Spells.cons_name hw hname fun _ _ => delimits_cons (by decide)).imp ?_
  intro ts hts
  obtain ⟨k, vs, rfl, hk, hv⟩ := kindsOf_eq_cons.mp hts
  obtain ⟨t, rfl, ht⟩ := kindsOf_eq_singleton.mp hv
  exact ⟨k, t, rfl, hk, ht⟩

/-- A type declares what the reader of its keyword reads behind its name. -/
theorem declared_spans {w tail : String} {keyword : Keyword} {R : List Token → Prop}
    {r : GraphClient.Definition} (h : TypeFormed j) (hf : DescriptionsFit j) (hw : IsName w)
    (hk : Keyword.ofText? w = some keyword) (ht : Spans (Source.ofString tail) R)
    (hd : ∀ rest, Delimits (Source.ofString tail ++ rest))
    (hb : ∀ t us line rest, t.kind = .name (textOf "name" j) → R us → AtDefinition rest →
      Parse.Reads (Parse.body ((textOf? "description" j).bind readText) keyword) line (t :: us)
        rest (some r, none)) :
    Spans (Source.ofString (opening w j ++ tail)) fun ts => Declares ts r := by
  rw [ofString_append, ofString_opening]
  refine ((describe_spans rfl hf.type).append (.after (naming_spells hw h) ht hd)).imp ?_
  rintro ts ⟨ds, us, rfl, hds, vs, ws, rfl, ⟨k, t, rfl, hkw, hn⟩, hv⟩
  rw [← readText_textOf?] at hds
  exact declares_of_body hds hkw hk hn fun rest hr => hb t ws _ rest hn hv hr

theorem opening_breaks {w : String} {b : Source} (hw : IsName w) (h : TypeFormed j)
    (hf : DescriptionsFit j) (hb : Breaks b) (hd : ∀ rest, Delimits (b ++ rest)) :
    Breaks (Source.ofString (opening w j) ++ b) := by
  rw [ofString_opening]
  exact .behind (describe_spans rfl hf.type) (.after (naming_spells hw h) hb hd)

theorem lineFeeds_spans : Spans (Source.ofString "\n\n") (OfKinds []) := fun _ _ =>
  ⟨[], _, (scans_blank rfl).append (scans_blank rfl), rfl⟩

theorem block_delimits (write : Json → String) (ms : List Json) (rest : Source) :
    Delimits (Source.ofString (block write ms) ++ rest) := by
  rw [block_eq, ofString_append, ofString_append, List.append_assoc, List.append_assoc]
  exact delimits_cons (by decide)

theorem fieldBlock_spans (h : TypeFormed j) (hf : DescriptionsFit j)
    (hr : ∀ f ∈ j.objectsMember "fields", ∀ r ∈ reason? f, IsOneLine r) :
    Spans (Source.ofString (block field (j.objectsMember "fields"))) fun ts =>
      RowBlock Field ts
        (((j.objectsMember "fields").map fieldOf).map (·.mapDescriptions readText)) := by
  rw [List.map_map]
  refine block_spans fun f hm => ⟨hf.field hm,
    (field_spells (h.fields f hm) (hr f hm)).imp fun _ hu ds hd => ?_⟩
  rw [Function.comp, mapDescriptions_fieldOf, readText_textOf?]
  exact hu ds _ hd

theorem inputBlock_spans (h : TypeFormed j) (hf : DescriptionsFit j) :
    Spans (Source.ofString (block inputValue (j.objectsMember "inputFields"))) fun ts =>
      RowBlock InputValue ts
        (((j.objectsMember "inputFields").map inputFieldOf).map (·.mapDescriptions readText)) := by
  rw [List.map_map]
  refine block_spans fun f hm => ⟨hf.inputField hm,
    (inputValue_spells (h.inputFields f hm)).imp fun _ hu ds hd => ?_⟩
  rw [Function.comp, InputValueDef.mapDescriptions, inputFieldOf, readText_textOf?]
  exact hu ds _ hd

theorem valueBlock_spans (h : TypeFormed j) (hf : DescriptionsFit j)
    (hr : ∀ v ∈ j.objectsMember "enumValues", ∀ r ∈ reason? v, IsOneLine r) :
    Spans (Source.ofString (block enumValue (j.objectsMember "enumValues"))) fun ts =>
      RowBlock ValueTokens ts
        (((j.objectsMember "enumValues").map enumValueOf).map (·.mapDescriptions readText)) := by
  rw [List.map_map]
  refine block_spans fun v hv => ⟨hf.enumValue hv,
    (enumValue_spells (h.enumValues v hv) (hr v hv)).imp ?_⟩
  rintro us ⟨t, dirs, rfl, ht, hdirs⟩ ds hd
  rw [← readText_textOf?] at hd
  exact ⟨ds, t, dirs, rfl, hd, ht, hdirs⟩

/-- The interfaces of a type and its fields. -/
theorem fields_span (h : TypeFormed j) (hf : DescriptionsFit j)
    (hr : ∀ f ∈ j.objectsMember "fields", ∀ r ∈ reason? f, IsOneLine r) :
    Spans (Source.ofString (interfaces j ++ block field (j.objectsMember "fields"))) fun ts =>
      ∃ us vs, ts = us ++ vs ∧ NamesBehind (.name "implements") .amp (kindsOf us) ∧
        RowBlock Field vs
          (((j.objectsMember "fields").map fieldOf).map (·.mapDescriptions readText)) := by
  rw [ofString_append]
  exact .after (interfaces_spell h.interfaces) (fieldBlock_spans h hf hr) (block_delimits _ _)

theorem fields_delimit (rest : Source) :
    Delimits
      (Source.ofString (interfaces j ++ block field (j.objectsMember "fields")) ++ rest) := by
  rw [ofString_append, List.append_assoc]
  exact delimits_interfaces (block_delimits _ _ _)

section Kinds

variable (h : TypeFormed j)
include h

theorem scalar_spans (hf : DescriptionsFit j) (hk : textOf "kind" j = "SCALAR") :
    Spans (Source.ofString (typeDefinition j)) fun ts => Declares ts (described j) := by
  have hd : described j = .scalar ((scalarOf j).mapDescriptions readText) := by
    rw [described, definitionOf, if_pos hk]
    rfl
  have ht : typeDefinition j = opening "scalar" j ++ "\n\n" := by
    simp [typeDefinition, opening, h.name.ne_empty, hk, h.notBuiltin]
  rw [hd, ht]
  refine declared_spans h hf (by decide) rfl lineFeeds_spans
    (fun _ => delimits_cons (by decide)) fun t us line rest hn hu hrest => ?_
  rw [kindsOf_eq_nil.mp hu]
  exact Parse.scalar_reads hn .nil hrest

theorem typeDefinition_enum (hk : textOf "kind" j = "ENUM") :
    typeDefinition j = opening "enum" j ++ block enumValue (j.objectsMember "enumValues") := by
  simp [typeDefinition, opening, h.name.ne_empty, hk]

theorem enum_spans (hf : DescriptionsFit j) (hk : textOf "kind" j = "ENUM")
    (hr : ∀ v ∈ j.objectsMember "enumValues", ∀ r ∈ reason? v, IsOneLine r) :
    Spans (Source.ofString (typeDefinition j)) fun ts => Declares ts (described j) := by
  have hd : described j = .enum ((enumOf j).mapDescriptions readText) := by
    simp [described, definitionOf, hk, GraphClient.Definition.mapDescriptions]
  rw [hd, typeDefinition_enum h hk]
  refine declared_spans h hf (by decide) rfl
    (valueBlock_spans h hf hr) (block_delimits _ _) fun t us line rest hn hu hrest => ?_
  have ha : Avoids [.atSign, .parenL] (us ++ rest) := by
    obtain ⟨o, vs, c, rfl, ho, -⟩ := hu
    exact avoids_of_kind ho (by decide)
  exact @Parse.enum_reads line [] us rest _ _ t _ hn .nil ha fun _ => valueBlock_reads hu

theorem input_spans (hf : DescriptionsFit j) (hk : textOf "kind" j = "INPUT_OBJECT") :
    Spans (Source.ofString (typeDefinition j)) fun ts => Declares ts (described j) := by
  have hd : described j = .input ((inputOf j).mapDescriptions readText) := by
    simp [described, definitionOf, hk, GraphClient.Definition.mapDescriptions]
  have ht : typeDefinition j =
      opening "input" j ++ block inputValue (j.objectsMember "inputFields") := by
    simp [typeDefinition, opening, h.name.ne_empty, hk]
  rw [hd, ht]
  refine declared_spans h hf (by decide) rfl
    (inputBlock_spans h hf) (block_delimits _ _) fun t us line rest hn hu hrest => ?_
  exact @Parse.input_reads line [] us rest _ _ t _ hn .nil hu.block hrest

theorem typeDefinition_object (hk : textOf "kind" j = "OBJECT") : typeDefinition j =
    opening "type" j ++ (interfaces j ++ block field (j.objectsMember "fields")) := by
  simp [typeDefinition, opening, h.name.ne_empty, hk, String.append_assoc]

theorem object_spans (hf : DescriptionsFit j) (hk : textOf "kind" j = "OBJECT")
    (hr : ∀ f ∈ j.objectsMember "fields", ∀ r ∈ reason? f, IsOneLine r) :
    Spans (Source.ofString (typeDefinition j)) fun ts => Declares ts (described j) := by
  have hd : described j = .object ((objectOf j).mapDescriptions readText) := by
    simp [described, definitionOf, hk, GraphClient.Definition.mapDescriptions]
  rw [hd, typeDefinition_object h hk]
  refine declared_spans h hf (by decide) rfl
    (fields_span h hf hr) fields_delimit ?_
  rintro t ts line rest hn ⟨us, vs, rfl, hu, hv⟩ hrest
  exact @Parse.type_reads line [] us vs rest _ _ t _ hn hu .nil hv.block hrest

theorem typeDefinition_interface (hk : textOf "kind" j = "INTERFACE") : typeDefinition j =
    opening "interface" j ++ (interfaces j ++ block field (j.objectsMember "fields")) := by
  simp [typeDefinition, opening, h.name.ne_empty, hk, String.append_assoc]

theorem interface_spans (hf : DescriptionsFit j) (hk : textOf "kind" j = "INTERFACE")
    (hr : ∀ f ∈ j.objectsMember "fields", ∀ r ∈ reason? f, IsOneLine r) :
    Spans (Source.ofString (typeDefinition j)) fun ts => Declares ts (described j) := by
  have hd : described j = .interface (textOf "name" j) := by
    simp [described, definitionOf, hk, GraphClient.Definition.mapDescriptions]
  rw [hd, typeDefinition_interface h hk]
  refine declared_spans h hf (by decide) rfl
    (fields_span h hf hr) fields_delimit ?_
  rintro t ts line rest hn ⟨us, vs, rfl, hu, hv⟩ hrest
  exact @Parse.interface_reads line [] us vs rest _ _ t hn hu .nil
    (hv.block.group fun _ _ => Field.balanced) hrest

theorem union_spans (hf : DescriptionsFit j) (hk : textOf "kind" j = "UNION") :
    Spans (Source.ofString (typeDefinition j)) fun ts => Declares ts (described j) := by
  have hd : described j = .union (textOf "name" j) := by
    simp [described, definitionOf, hk, GraphClient.Definition.mapDescriptions]
  have ht : typeDefinition j = opening "union" j ++
      (" = " ++ " | ".intercalate (namesIn "possibleTypes" j) ++ "\n\n") := by
    simp [typeDefinition, opening, h.name.ne_empty, hk, String.append_assoc, namesIn]
  have htail : Spans (Source.ofString (" = " ++ " | ".intercalate (namesIn "possibleTypes" j) ++
      "\n\n")) fun ts => NamesBehind (.punctuator .equals) .pipe (kindsOf ts) := by
    rw [ofString_append]
    refine (Spans.after (members_spell h.members (h.union hk)) lineFeeds_spans fun _ =>
      delimits_cons (by decide)).imp ?_
    rintro ts ⟨us, vs, rfl, hu, hv⟩
    rwa [kindsOf_eq_nil.mp hv, List.append_nil]
  rw [hd, ht]
  refine declared_spans h hf (by decide) rfl htail (fun rest => ?_)
    fun t us line rest hn hu hrest => ?_
  · rw [ofString_append, ofString_append, List.append_assoc, List.append_assoc]
    exact delimits_cons (by decide)
  · exact @Parse.union_reads line [] us rest _ _ t hn .nil hu hrest.avoids

/-- A type with clean reasons is written as the tokens of its definition. -/
theorem typeDefinition_spans (hf : DescriptionsFit j) (hr : ReasonsOnLine j) :
    Spans (Source.ofString (typeDefinition j)) fun ts => Declares ts (described j) := by
  have hk := h.kind
  simp only [kinds, List.mem_cons, List.not_mem_nil, or_false] at hk
  rcases hk with hk | hk | hk | hk | hk | hk
  · exact scalar_spans h hf hk
  · exact enum_spans h hf hk (hr.1 hk)
  · exact input_spans h hf hk
  · exact interface_spans h hf hk (hr.2 (by simp [hk]))
  · exact object_spans h hf hk (hr.2 (by simp [hk]))
  · exact union_spans h hf hk

theorem values_break (hf : DescriptionsFit j)
    (hr : ¬ ∀ v ∈ j.objectsMember "enumValues", ∀ r ∈ reason? v, IsOneLine r) :
    Breaks (Source.ofString (block enumValue (j.objectsMember "enumValues"))) :=
  block_breaks (fun _ hv => hf.enumValue hv)
    (fun v hv hc => enumValue_spells (h.enumValues v hv) hc)
    (fun v hv hc => enumValue_breaks (h.enumValues v hv) hc) hr

theorem fields_break (hf : DescriptionsFit j)
    (hr : ¬ ∀ f ∈ j.objectsMember "fields", ∀ r ∈ reason? f, IsOneLine r) :
    Breaks (Source.ofString (interfaces j ++ block field (j.objectsMember "fields"))) := by
  rw [ofString_append]
  refine .after (interfaces_spell h.interfaces) ?_ (block_delimits _ _)
  exact block_breaks (fun _ hm => hf.field hm) (fun f hm hc => field_spells (h.fields f hm) hc)
    (fun f hm hc => field_breaks (h.fields f hm) hc) hr

/-- A type with a reason that has a line break is written as a broken text. -/
theorem typeDefinition_breaks (hf : DescriptionsFit j) (hr : ¬ ReasonsOnLine j) :
    Breaks (Source.ofString (typeDefinition j)) := by
  rw [ReasonsOnLine, Classical.not_and_iff_not_or_not, Classical.not_imp, Classical.not_imp] at hr
  rcases hr with ⟨hk, hv⟩ | ⟨hk, hv⟩
  · rw [typeDefinition_enum h hk, ofString_append]
    exact opening_breaks (by decide) h hf (values_break h hf hv) (block_delimits _ _)
  · simp only [List.mem_cons, List.not_mem_nil, or_false] at hk
    rcases hk with hk | hk
    · rw [typeDefinition_object h hk, ofString_append]
      exact opening_breaks (by decide) h hf (fields_break h hf hv) fields_delimit
    · rw [typeDefinition_interface h hk, ofString_append]
      exact opening_breaks (by decide) h hf (fields_break h hf hv) fields_delimit

end Kinds

end Types

/-! ## Lists of types -/

section Lists

variable {js : List Json}

theorem types_span (h : ∀ j ∈ js, TypeFormed j) (hf : ∀ j ∈ js, DescriptionsFit j)
    (hr : ∀ j ∈ js, ReasonsOnLine j) :
    Spans (Source.ofString (String.join (js.map typeDefinition))) fun ts =>
      Many Declares ts (js.map described) := by
  induction js with
  | nil => exact fun _ s => ⟨[], s, .done, .nil⟩
  | cons j js ih =>
    have hj := typeDefinition_spans (h j List.mem_cons_self) (hf j List.mem_cons_self)
      (hr j List.mem_cons_self)
    have hjs := ih (fun k hk => h k (List.mem_cons_of_mem j hk))
      (fun k hk => hf k (List.mem_cons_of_mem j hk)) fun k hk => hr k (List.mem_cons_of_mem j hk)
    rw [List.map_cons, String.join_cons, ofString_append]
    refine (hj.append hjs).imp ?_
    rintro ts ⟨us, vs, rfl, hu, hv⟩
    exact .cons hu hv

theorem types_break (h : ∀ j ∈ js, TypeFormed j) (hf : ∀ j ∈ js, DescriptionsFit j)
    (hr : ¬ ∀ j ∈ js, ReasonsOnLine j) :
    Breaks (Source.ofString (String.join (js.map typeDefinition))) := by
  induction js with
  | nil => simp at hr
  | cons j js ih =>
    rw [List.map_cons, String.join_cons, ofString_append]
    by_cases hj : ReasonsOnLine j
    · have hjs : ¬ ∀ k ∈ js, ReasonsOnLine k := fun hk => hr fun k hk' => by
        rcases List.mem_cons.mp hk' with rfl | hk'
        · exact hj
        · exact hk k hk'
      have hb := ih (fun k hk => h k (List.mem_cons_of_mem j hk))
        (fun k hk => hf k (List.mem_cons_of_mem j hk)) hjs
      exact .behind (typeDefinition_spans (h j List.mem_cons_self) (hf j List.mem_cons_self) hj) hb
    · exact (typeDefinition_breaks (h j List.mem_cons_self) (hf j List.mem_cons_self) hj).append

end Lists

end Introspection

end GraphClient
