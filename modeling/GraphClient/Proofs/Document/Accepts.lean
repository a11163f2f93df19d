import GraphClient.Proofs.Document.Bodies
import GraphClient.Proofs.Schema.Records

/-!
# Documents of the grammar are accepted

Whatever lines its tokens are on, a document that derives from the grammar is read without
warnings, and what is read are the definitions it derives (`ofTokens_derived`).
-/

namespace GraphClient

open Grammar

/-! ## Starts of definitions -/

theorem keyword?_of_name {t : Token} {n : String} (h : t.kind = .name n) :
    t.keyword? = Keyword.ofText? n := by
  simp [Token.keyword?, Token.name?_eq_some.mpr h]

/-- A keyword and a name start a definition; so do a keyword and an at sign or a brace. -/
theorem startsDefinition_keyword {ds rest : List Token} {d : Option String} {k t : Token}
    {w : String} {keyword : Keyword} (hd : Description ds d) (hk : k.kind = .name w)
    (hw : Keyword.ofText? w = some keyword)
    (ht : (t.isName || t.is .atSign || t.is .braceL) = true) :
    startsDefinition (ds ++ k :: t :: rest) = true := by
  rw [startsDefinition, afterDescription_describes hd hk]
  simp only [keyword?_of_name hk, hw, ht]
  rfl

theorem isName_of_name {t : Token} {n : String} (h : t.kind = .name n) : t.isName = true := by
  simp [Token.isName, Token.name?, h]

namespace Grammar

theorem Extension.head {ts : List Token} (h : Extension (kindsOf ts)) :
    ∃ t us, ts = t :: us ∧ t.isName = true := by
  obtain ⟨w, ls, hk, -⟩ := h.inert
  obtain ⟨t, us, rfl, ht, -⟩ := kindsOf_eq_cons.mp hk
  exact ⟨t, us, rfl, isName_of_name ht⟩

/-- Behind the keyword `schema` stands a directive or the opening brace. -/
theorem Directives.head {ts us : List Token} {o : Token} (h : Directives (kindsOf ts))
    (ho : o.kind = .punctuator .braceL) : ∃ t vs, ts ++ o :: us = t :: vs ∧
      (t.is .atSign = true ∨ t.is .braceL = true) := by
  rcases h.free.nil_or_cons with rfl | ⟨a, vs, rfl, ha⟩
  · exact ⟨o, us, rfl, .inr (Token.is_iff.mpr ho)⟩
  · exact ⟨a, vs ++ o :: us, rfl, .inl (Token.is_iff.mpr ha)⟩

theorem Definition.starts {ts rest : List Token} {o : Option GraphClient.Definition}
    (h : Definition ts o) : startsDefinition (ts ++ rest) = true := by
  obtain ⟨hd, hb⟩ := h
  rw [List.append_assoc]
  cases hb with
  | scalar hk ht _ _ => exact startsDefinition_keyword hd hk rfl (by simp [isName_of_name ht])
  | enum hk ht _ _ _ => exact startsDefinition_keyword hd hk rfl (by simp [isName_of_name ht])
  | type hk ht _ _ _ _ => exact startsDefinition_keyword hd hk rfl (by simp [isName_of_name ht])
  | input hk ht _ _ _ => exact startsDefinition_keyword hd hk rfl (by simp [isName_of_name ht])
  | interface hk ht _ _ _ _ =>
    exact startsDefinition_keyword hd hk rfl (by simp [isName_of_name ht])
  | union hk ht _ _ _ => exact startsDefinition_keyword hd hk rfl (by simp [isName_of_name ht])
  | @schema k o c dirs bs hk hdirs ho hb hc =>
    obtain ⟨t, vs, e, ht⟩ : ∃ t vs, dirs ++ o :: (bs ++ [c] ++ rest) = t :: vs ∧ _ :=
      hdirs.head ho
    rw [List.cons_append, List.append_assoc, List.cons_append, e]
    exact startsDefinition_keyword hd hk rfl (by rcases ht with ht | ht <;> simp [ht])
  | directive hk ha _ _ _ _ _ _ =>
    exact startsDefinition_keyword hd hk rfl (by simp [Token.is_iff.mpr ha])
  | extension hk he =>
    obtain ⟨t, us, rfl, ht⟩ := he.head
    exact startsDefinition_keyword hd hk rfl (by simp [ht])

theorem Definition.ne_nil {ts : List Token} {o : Option GraphClient.Definition}
    (h : Definition ts o) : ts ≠ [] := by
  rintro rfl
  have hs : startsDefinition ([] ++ []) = true := h.starts
  cases hs

theorem Document.atDefinition {ts : List Token} {ds : List GraphClient.Definition}
    (h : Document ts ds) : AtDefinition ts := by
  cases h with
  | nil => exact atDefinition_nil
  | cons hd _ => exact fun _ => hd.starts

end Grammar

/-! ## Reading a document -/

namespace Parse

variable {line : Nat} {ts rest : List Token}

theorem definition_reads_of {o : Option GraphClient.Definition} (h : Grammar.Definition ts o)
    (hr : AtDefinition rest) : Reads definition line ts rest (o, none) := by
  obtain ⟨hd, hb⟩ := h
  cases hb with
  | scalar hk ht _ hdirs => exact definition_reads hd hk rfl (scalar_reads ht hdirs hr)
  | enum hk ht _ hdirs hb =>
    exact definition_reads hd hk rfl (enum_reads ht hdirs (hb.avoids hr.avoids (by decide))
      fun _ => enumValues_reads hb hr.avoids)
  | type hk ht _ hi hdirs hb =>
    exact definition_reads hd hk rfl (type_reads ht hi.namesBehind hdirs hb hr)
  | input hk ht _ hdirs hb => exact definition_reads hd hk rfl (input_reads ht hdirs hb hr)
  | interface hk ht _ hi hdirs hb =>
    exact definition_reads hd hk rfl
      (interface_reads ht hi.namesBehind hdirs (hb.group fun _ _ => Field.balanced) hr)
  | union hk ht _ hdirs ha =>
    exact definition_reads hd hk rfl (union_reads ht hdirs ha.namesBehind hr.avoids)
  | schema hk hdirs ho hb hc => exact definition_reads hd hk rfl (schema_reads hdirs ho hb hc)
  | directive hk ha ht _ hg hs ho hl =>
    exact definition_reads hd hk rfl (directive_reads ha ht hg hs ho (.of_listed hl) hr)
  | extension hk he => exact definition_reads hd hk rfl (extension_reads he hr)

/-- A definition without an issue is an entry of the document. -/
theorem entry_reads {o : Option GraphClient.Definition}
    (h : Reads definition line ts rest (o, none)) : Reads entry line ts rest o := by
  unfold Reads at h ⊢
  simp only [entry, h]

theorem definitions_members {ds : List GraphClient.Definition} (h : Grammar.Document ts ds) :
    Members (fun c => !c.rest.isEmpty) entry [] line ts ds := by
  induction h generalizing line with
  | nil => exact .done rfl
  | @cons ts us o ds hd hds ih =>
    have hne : ts ≠ [] := hd.ne_nil
    have hus : AtDefinition (us ++ []) := by simpa using hds.atDefinition
    exact .more (by simp [hne]) hne (entry_reads (definition_reads_of hd hus)) ih

theorem definitions_reads {ds : List GraphClient.Definition}
    (h : Members (fun c => !c.rest.isEmpty) entry [] 0 ts ds) :
    GraphClient.Document.ofTokens ts = ⟨ds, []⟩ := by
  have hr : definitions ⟨0, ts⟩ = ⟨[], ⟨lastLine 0 ts, []⟩, .ok ds⟩ := by
    have hl : definitions ⟨0, ts ++ []⟩ = _ := h.reads
    rwa [List.append_nil] at hl
  rw [Document.ofTokens, hr]

/-- One definition is a document. -/
theorem ofTokens_single {ts : List Token} {o : Option GraphClient.Definition} (hne : ts ≠ [])
    (h : Reads definition 0 ts [] (o, none)) :
    GraphClient.Document.ofTokens ts = ⟨o.toList, []⟩ := by
  have hm : Members (fun c => !c.rest.isEmpty) entry [] 0 (ts ++ []) (o.toList ++ []) :=
    .more (by simp [hne]) hne (entry_reads h) (.done rfl)
  rw [List.append_nil, List.append_nil] at hm
  exact definitions_reads hm

end Parse

/-- A document of the grammar is read without warnings, and its schema holds the definitions
that it derives. -/
theorem ofTokens_derived {ts : List Token} {ds : List GraphClient.Definition}
    (h : Grammar.Document ts ds) :
    (Document.ofTokens ts).warnings = [] ∧ (Document.ofTokens ts).definitions = ds ∧
      (Document.ofTokens ts).schema.Records ds := by
  rw [Parse.definitions_reads (Parse.definitions_members h)]
  exact ⟨rfl, rfl, Schema.records_ofDefinitions ds⟩

/-- An extension whose interfaces end where a type begins, with a field named by a keyword. -/
def Grammar.extendedThenType : List Token :=
  [(1, .name "extend"), (1, .name "type"), (1, .name "A"), (1, .name "implements"), (2, .name "B"),
    (2, .name "type"), (3, .name "Query"), (3, .punctuator .braceL), (4, .name "type"),
    (4, .punctuator .colon), (5, .name "Int"), (5, .punctuator .bang),
    (5, .punctuator .braceR)].map fun p => ⟨⟨p.2, ⟨p.1, 1⟩⟩, [], []⟩

theorem ofTokens_derived_extension :
    let field : FieldDef := ⟨"type", none, .nonNull (.named "Int"), []⟩
    let ds : List GraphClient.Definition := [.object ⟨"Query", none, [field]⟩]
    Grammar.Document extendedThenType ds ∧
      (Document.ofTokens extendedThenType).warnings = [] ∧
      (Document.ofTokens extendedThenType).definitions = ds ∧
      (Document.ofTokens extendedThenType).schema.Records ds := by
  intro field ds
  have hext : Extension [.name "type", .name "A", .name "implements", .name "B"] :=
    @Extension.type "A" [.name "implements", .name "B"] [] [] rfl
      (.list (@Listed.plain .amp "B" [] (by simp [Plain, Keyword.ofText?]))) .nil .none
  have hfield : Grammar.Field ((extendedThenType.drop 8).take 4) field :=
    @Grammar.Field.mk [] [] ((extendedThenType.drop 10).take 2) [] _ _ none "type" []
      (.nonNull (.named "Int")) .none rfl .none rfl rfl ⟨rfl, trivial⟩ .nil
  have hblock : Block Field (extendedThenType.drop 7) [field] :=
    .members rfl (.cons hfield .nil) rfl
  have hextension : Body none (extendedThenType.take 5) none :=
    @Body.extension none _ ((extendedThenType.drop 1).take 4) rfl hext
  have htype : Body none (extendedThenType.drop 5) (some (.object ⟨"Query", none, [field]⟩)) :=
    @Body.type none _ _ "Query" [] [] _ _ rfl rfl rfl .none .nil hblock
  have h : Grammar.Document extendedThenType ds :=
    .cons (.mk .none hextension) (.cons (.mk .none htype) .nil)
  exact ⟨h, ofTokens_derived h⟩

end GraphClient
