import GraphClient.Proofs.Document.Results
import GraphClient.Proofs.Schema.Records
import GraphClient.Proofs.Token.Lexemes

/-!
# Names and texts in a document

Whatever the text, its name tokens are names, and so are the names that are read from them:
`Parse.Yields p Q` says that `p` reads from such tokens only what has the property `Q`. So a
definition that is read, however much of the text around it cannot be, has names for itself, its
members, their arguments, and the leaves of their types, and no type is twice marked as never null.
Descriptions and default values that are there are not empty (`Filled`), because a value takes a
token at least and a token has a text (`ofString_proper`).
-/

namespace GraphClient

/-- A token that is a name if it is taken for one, and has a text. -/
structure Token.Proper (t : Token) : Prop where
  name : ∀ text, t.kind = .name text → IsName text
  lexeme : t.lexeme ≠ []

/-- A text that is not empty, if there is one. -/
def Filled (text : Option String) : Prop := text ≠ some ""

/-- A type with a name at its leaf and no mark behind a mark. -/
def TypeRef.Proper : TypeRef → Prop
  | named name => IsName name
  | list element => element.Proper
  | nonNull inner => inner.Proper ∧ inner.isNonNull = false

structure InputValueDef.Proper (v : InputValueDef) : Prop where
  name : IsName v.name
  description : Filled v.description
  type : v.type.Proper
  defaultValue : Filled v.defaultValue

structure FieldDef.Proper (f : FieldDef) : Prop where
  name : IsName f.name
  description : Filled f.description
  type : f.type.Proper
  arguments : ∀ a ∈ f.arguments, a.Proper

structure EnumValueDef.Proper (v : EnumValueDef) : Prop where
  name : IsName v.name
  description : Filled v.description

/-- The description that a definition is recorded with. -/
def Definition.description : Definition → Option String
  | scalar d => d.description
  | enum d => d.description
  | object d => d.description
  | input d => d.description
  | interface _ | union _ => none

/-- What holds of the members of a definition. -/
def Definition.MembersProper : Definition → Prop
  | enum d => ∀ v ∈ d.values, v.Proper
  | object d => ∀ f ∈ d.fields, f.Proper
  | input d => ∀ f ∈ d.fields, f.Proper
  | scalar _ | interface _ | union _ => True

structure Definition.Proper (d : Definition) : Prop where
  name : IsName d.name
  description : Filled d.description
  members : d.MembersProper

/-! ## Tokens -/

section Tokens

variable {c : Char} {cells rest : Source} {kind : TokenKind} {text : String} {n : Nat}

theorem kind_of_readNumber (h : readNumber cells = .ok (kind, n)) :
    kind = .int ∨ kind = .float := by
  simp only [readNumber, bind, Except.bind] at h
  repeat' split at h
  all_goals cases h
  · exact .inl rfl
  · exact .inr rfl

theorem isName_of_read (h : read (.whole c) rest = .token (.name text) n) : IsName text := by
  obtain ⟨-, -, -, ht⟩ := readFrom_token.mp h
  cases ht with
  | quoted _ hq =>
    rw [readQuoted.eq_def] at hq
    split at hq <;> split at hq <;> cases hq
  | number _ _ _ hn => rcases kind_of_readNumber hn with hk | hk <;> cases hk
  | name _ _ _ hs =>
    refine ⟨c, _, by rw [Source.toString, List.map_cons, String.toList_ofList]; rfl, hs, ?_⟩
    intro d hd
    obtain ⟨cell, hcell, rfl⟩ := List.mem_map.mp hd
    have hp := List.all_eq_true.mp List.all_takeWhile cell hcell
    cases cell with
    | whole e => exact hp
    | half e => cases hp

theorem lexFrom_proper (gap : Source) (position : Nat) (place : Place) (cells : Source) :
    ∀ t ∈ (lexFrom gap position place cells).tokens, t.Proper := by
  fun_induction lexFrom gap position place cells with
  | case1 => exact List.forall_mem_nil _
  | case2 => exact List.forall_mem_nil _
  | case3 gap position place c cells n hr text ih => exact ih
  | case4 gap position place c cells kind n hr lexeme later ih =>
    rw [List.forall_mem_cons]
    refine ⟨⟨fun text hk => ?_, List.cons_ne_nil _ _⟩, ih⟩
    cases c with
    | whole c => exact isName_of_read (by rw [hr, ← hk])
    | half c => cases hr

theorem tokenize_proper (cells : Source) : ∀ t ∈ (tokenize cells).tokens, t.Proper := by
  rw [tokens_tokenize]
  exact lexFrom_proper _ _ _ _

end Tokens

namespace Parse

variable {α β : Type} {Q : α → Prop} {R : β → Prop}

/-- What is read from proper tokens has the property `Q`. -/
def Yields (p : Parse α) (Q : α → Prop) : Prop :=
  ∀ c : Cursor, (∀ t ∈ c.rest, t.Proper) → ∀ a, (p c).result = .ok a → Q a

abbrev ProperTokens (ts : List Token) : Prop := ∀ t ∈ ts, t.Proper

theorem inherits_proper : Inherits ProperTokens := fun _ _ hs h t ht => h t (hs.subset ht)

theorem Yields.bind {p : Parse α} {f : α → Parse β} (hl : Local p) (hp : Yields p Q)
    (hf : ∀ a, Q a → Yields (f a) R) : Yields (p >>= f) R := Gives.bind inherits_proper hl hp hf

/-- A reader in front whose result does not matter. -/
theorem Yields.after {p : Parse α} {f : α → Parse β} (hl : Local p)
    (hf : ∀ a, Yields (f a) R) : Yields (p >>= f) R := Gives.after inherits_proper hl hf

theorem yields_pure {a : α} (h : Q a) : Yields (pure a) Q :=
  gives_pure (P := ProperTokens) h

theorem yields_name : Yields name IsName := by
  intro c hc a h
  obtain ⟨o, ho, h⟩ := result_andThen.mp h
  cases ho
  show IsName a
  cases hn : c.rest.head?.bind Token.name? with
  | none =>
    rw [show c.rest.head?.bind Token.name? = none from hn] at h
    cases h
  | some text =>
    rw [show c.rest.head?.bind Token.name? = some text from hn] at h
    obtain ⟨t, ht, htext⟩ := Option.bind_eq_some_iff.mp hn
    cases h
    exact (hc t (List.mem_of_mem_head? ht)).name _ (Token.name?_eq_some.mp htext)

theorem yields_description : Yields description Filled := by
  refine gives_peek (P := ProperTokens) fun o => ?_
  cases o.bind Token.string? with
  | none => exact yields_pure nofun
  | some text =>
    refine Yields.after local_advance fun _ => yields_pure fun h => ?_
    split at h
    · cases h
    · rename_i hne
      exact hne (Option.some.inj h)

/-! ## Types and members -/

theorem yields_marked (t : TypeRef) : Yields (marked t) fun u => u = t ∨ u = .nonNull t := by
  refine Yields.after (local_accept _) fun b => ?_
  cases b
  · exact yields_pure (.inl rfl)
  · exact yields_pure (.inr rfl)

theorem typeRefFrom_proper {ts : List Token} (h : ∀ t ∈ ts, t.Proper) (line : Nat) (r : TypeRef)
    (hr : (typeRefFrom line ts).result = .ok r) : r.Proper := by
  -- what a mark may be put behind is not marked itself
  have hm : ∀ {t u : TypeRef}, t.Proper → t.isNonNull = false → u = t ∨ u = .nonNull t →
      u.Proper := by
    rintro t u ht hn (rfl | rfl)
    · exact ht
    · exact ⟨ht, hn⟩
  induction ts generalizing line r with
  | nil => cases hr
  | cons t ts ih =>
    rw [List.forall_mem_cons] at h
    rw [typeRefFrom] at hr
    split at hr
    · obtain ⟨element, he, hr⟩ := result_andThen.mp hr
      have hp : element.Proper := ih h.2 _ _ he
      have hrest : ∀ u ∈ (typeRefFrom t.line ts).cursor.rest, u.Proper :=
        inherits_proper.behind (c := ⟨t.line, ts⟩) local_typeRef h.2
      exact hm (t := .list element) hp rfl
        (Yields.after (local_expect _) (fun _ => yields_marked _) _ hrest r hr)
    · split at hr
      · rename_i text hn
        have hp : IsName text := h.1.name text (Token.name?_eq_some.mp hn)
        exact hm (t := .named text) hp rfl (yields_marked _ ⟨t.line, ts⟩ h.2 r hr)
      · cases hr

theorem yields_typeRef : Yields typeRef TypeRef.Proper := fun c hc r hr =>
  typeRefFrom_proper hc c.line r hr

theorem yields_elementType (element : String) :
    Yields ( typeAnnotation element) TypeRef.Proper := by
  have hs : IsName "String" := by decide
  refine Yields.after (local_accept _) fun b => ?_
  cases b
  · exact Yields.after (local_warn fun _ => rfl) fun _ => yields_pure hs
  · exact yields_typeRef

section Values

variable {line : Nat} {t : Token} {ts : List Token}

theorem group_suffix {opening closing : Punctuator} (h : t.kind = .punctuator opening) :
    (group opening closing ⟨line, t :: ts⟩).cursor.rest <:+ ts := by
  rw [group_of_nextIs (nextIs_cons h), leaveGroup, if_pos (Token.is_iff.mpr h)]
  exact leaveGroup_passes.1.suffix

/-- A value takes a token at least. -/
theorem anyValue_suffix (h : (anyValue ⟨line, t :: ts⟩).result = .ok ()) :
    (anyValue ⟨line, t :: ts⟩).cursor.rest <:+ ts := by
  rw [anyValue, peek_bind, List.head?_cons] at *
  cases hk : t.kind with
  | punctuator p =>
    cases p with
    | bracketL =>
      simp only [hk]
      exact group_suffix hk
    | braceL =>
      simp only [hk]
      exact group_suffix hk
    | dollar =>
      simp only [hk]
      have hl : Local (do let _ ← name) := LocalTo.bind local_name fun _ => local_pure fun _ => rfl
      exact (hl ⟨t.line, ts⟩).passes.suffix
    | _ =>
      simp only [hk] at h
      cases h
  | _ =>
    simp only [hk]
    exact List.suffix_refl ts

theorem spanText_ne {n : Nat} (h : t.lexeme ≠ []) : spanText ((t :: ts).take (n + 1)) ≠ "" := by
  intro he
  have hl := congrArg String.toList he
  rw [List.take_succ_cons, spanText, Source.toString, String.toList_ofList] at hl
  exact h (List.append_eq_nil_iff.mp (List.map_eq_nil_iff.mp hl)).1

end Values

theorem yields_defaultText : Yields defaultText Filled := by
  rintro ⟨line, _ | ⟨t, ts⟩⟩ hc a ha
  · cases ha
  rcases hv : anyValue ⟨line, t :: ts⟩ with ⟨ws, d, i | u⟩ <;>
    simp only [defaultText, List.isEmpty_cons, hv] at ha <;> cases ha
  have hs : d.rest <:+ ts := by
    have h := @anyValue_suffix line t ts (by rw [hv])
    rwa [hv] at h
  have hn : (t :: ts).length - d.rest.length = ts.length - d.rest.length + 1 := by
    rw [List.length_cons, Nat.sub_add_comm hs.length_le]
  rw [hn]
  exact fun h => spanText_ne (hc t List.mem_cons_self).lexeme (Option.some.inj h)

theorem yields_defaultValue : Yields defaultValue Filled := by
  rw [defaultValue_eq]
  refine Yields.after (local_accept _) fun b => ?_
  cases b
  · exact yields_pure nofun
  · exact yields_defaultText

theorem yields_inputValue (element : String → String) :
    Yields (inputValue element) InputValueDef.Proper :=
  Yields.bind local_description yields_description fun _ hdescription =>
    Yields.bind local_name yields_name fun _ hname =>
      Yields.bind (local_elementType _) (yields_elementType _) fun _ htype =>
        Yields.bind local_defaultValue yields_defaultValue fun _ hdefault =>
          Yields.after local_directives fun _ =>
            yields_pure ⟨hname, hdescription, htype, hdefault⟩

theorem yields_arguments (owner : String) :
    Yields (arguments owner) fun as => ∀ a ∈ as, a.Proper :=
  gives_arguments inherits_proper yields_inputValue owner

theorem yields_field (owner : String) : Yields (field owner) FieldDef.Proper :=
  Yields.bind local_description yields_description fun _ hdescription =>
    Yields.bind local_name yields_name fun _ hname =>
      Yields.bind (local_arguments _) (yields_arguments _) fun _ harguments =>
        Yields.bind (local_elementType _) (yields_elementType _) fun _ htype =>
          Yields.after local_directives fun _ =>
            yields_pure ⟨hname, hdescription, htype, harguments⟩

theorem yields_enumValue : Yields enumValue EnumValueDef.Proper :=
  Yields.bind local_description yields_description fun _ hdescription =>
    Yields.bind local_name yields_name fun _ hname =>
      Yields.after local_directives fun _ => yields_pure ⟨hname, hdescription⟩

/-! ## Definitions -/

/-- A definition that is read, if one is, is proper. -/
abbrev ProperRead (r : Option GraphClient.Definition × Option Issue) : Prop :=
  ∀ d ∈ r.1, d.Proper

theorem composes_proper : Composes IsName Filled EnumValueDef.Proper FieldDef.Proper
    InputValueDef.Proper GraphClient.Definition.Proper where
  scalar hn hd := ⟨hn, hd, trivial⟩
  enum hn hd hvalues := ⟨hn, hd, hvalues⟩
  object hn hd hfields := ⟨hn, hd, hfields⟩
  input hn hd hfields := ⟨hn, hd, hfields⟩
  interface hn := ⟨hn, nofun, trivial⟩
  union hn := ⟨hn, nofun, trivial⟩

theorem yields_definition : Yields definition ProperRead :=
  gives_definition inherits_proper composes_proper yields_name yields_description yields_enumValue
    yields_field yields_inputValue

end Parse

namespace Document

theorem ofTokens_proper {ts : List Token} (h : ∀ t ∈ ts, t.Proper) :
    ∀ d ∈ (ofTokens ts).definitions, d.Proper :=
  ofTokens_gives Parse.inherits_proper Parse.yields_definition h

/-- Whatever the text, the definitions that are read from it are proper. -/
theorem ofString_proper (s : String) : ∀ d ∈ (ofString s).definitions, d.Proper :=
  ofTokens_proper (tokenize_proper _)

/-- The objects of the schema of a text have names, and their fields are proper. -/
theorem schema_objects_proper {s : String} {o : ObjectDef}
    (h : o ∈ (ofString s).schema.objects) : IsName o.name ∧ ∀ f ∈ o.fields, f.Proper := by
  have hr := (Schema.records_ofDefinitions (ofString s).definitions).objects
  rw [schema, hr, List.mem_filterMap] at h
  obtain ⟨d, hd, ho⟩ := h
  cases d with
  | object d =>
    rw [Definition.object?] at ho
    split at ho
    · cases ho
    · cases ho
      have hp := ofString_proper s _ hd
      exact ⟨hp.name, hp.members⟩
  | _ => cases ho

end Document

end GraphClient
