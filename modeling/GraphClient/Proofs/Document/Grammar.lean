import GraphClient.Document

/-!
# The grammar of documents

`Grammar.Document ts ds`: the tokens `ts` derive from the grammar of type definitions, and
define `ds`. Parts that a schema does not record (directives, values, groups in brackets) are
languages of token kinds; members and definitions are relations between the tokens and what
they define, since a default value keeps its text. The grammar says nothing of lines. A name
that is `Plain` is no keyword: so are all names except those of fields and arguments, and
those in values and in brackets that are skipped.
-/

namespace GraphClient

/-- An opening bracket and its closing one. -/
inductive Punctuator.Encloses : Punctuator → Punctuator → Prop where
  | parens : Encloses .parenL .parenR
  | brackets : Encloses .bracketL .bracketR
  | braces : Encloses .braceL .braceR

def TokenKind.isBracket : TokenKind → Bool
  | .punctuator .parenL | .punctuator .parenR | .punctuator .bracketL | .punctuator .bracketR
  | .punctuator .braceL | .punctuator .braceR => true
  | _ => false

/-- Token kinds among which the brackets are properly nested. -/
inductive Balanced : List TokenKind → Prop where
  | nil : Balanced []
  | token {k : TokenKind} {ks : List TokenKind} :
      k.isBracket = false → Balanced ks → Balanced (k :: ks)
  | group {o c : Punctuator} {ks ls : List TokenKind} : o.Encloses c → Balanced ks → Balanced ls →
      Balanced (.punctuator o :: (ks ++ .punctuator c :: ls))

/-- The kinds of some tokens. -/
abbrev kindsOf (ts : List Token) : List TokenKind := ts.map fun t => t.kind

namespace TypeRef

/-- The tokens of a type reference. -/
def kinds : TypeRef → List TokenKind
  | named name => [.name name]
  | list element => .punctuator .bracketL :: (element.kinds ++ [.punctuator .bracketR])
  | nonNull inner => inner.kinds ++ [.punctuator .bang]

/-- No mark that a type is never null stands on a marked type. -/
def IsProper : TypeRef → Prop
  | named _ => True
  | list element => element.IsProper
  | nonNull inner => inner.isNonNull = false ∧ inner.IsProper

end TypeRef

/-- Names with a punctuator between them. -/
def separated (p : Punctuator) : List String → List TokenKind
  | [] => []
  | n :: ns => .name n :: ns.flatMap fun m => [.punctuator p, .name m]

namespace Grammar

/-- A name that begins no definition. -/
def Plain (n : String) : Prop := Keyword.ofText? n = none

/-! ## Languages of kinds -/

inductive Directives : List TokenKind → Prop where
  | nil : Directives []
  | bare {n : String} {ks : List TokenKind} : Plain n → Directives ks →
      Directives (.punctuator .atSign :: .name n :: ks)
  | withArguments {n : String} {ks ls : List TokenKind} : Plain n → Balanced ks → Directives ls →
      Directives (.punctuator .atSign :: .name n :: .punctuator .parenL ::
        (ks ++ .punctuator .parenR :: ls))

/-- A value: a single token, a variable, or a group in brackets. -/
inductive Literal : List TokenKind → Prop where
  | name (n : String) : Literal [.name n]
  | int : Literal [.int]
  | float : Literal [.float]
  | string (s : String) : Literal [.string s]
  | blockString (s : String) : Literal [.blockString s]
  | dollar (n : String) : Literal [.punctuator .dollar, .name n]
  | list {ks : List TokenKind} : Balanced ks →
      Literal (.punctuator .bracketL :: (ks ++ [.punctuator .bracketR]))
  | object {ks : List TokenKind} : Balanced ks →
      Literal (.punctuator .braceL :: (ks ++ [.punctuator .braceR]))

/-- At least one name, with a punctuator between names and perhaps before the first. -/
inductive Listed (p : Punctuator) : List TokenKind → Prop where
  | plain {n : String} {ns : List String} : (∀ m ∈ n :: ns, Plain m) →
      Listed p (separated p (n :: ns))
  | led {n : String} {ns : List String} : (∀ m ∈ n :: ns, Plain m) →
      Listed p (.punctuator p :: separated p (n :: ns))

/-- The interfaces that a type implements, if any. -/
inductive Interfaces : List TokenKind → Prop where
  | none : Interfaces []
  | list {ks : List TokenKind} : Listed .amp ks → Interfaces (.name "implements" :: ks)

/-- The members of a union, if any. -/
inductive Alternatives : List TokenKind → Prop where
  | none : Alternatives []
  | list {ks : List TokenKind} : Listed .pipe ks → Alternatives (.punctuator .equals :: ks)

/-- A group in brackets, or nothing. -/
inductive Group (o c : Punctuator) : List TokenKind → Prop where
  | none : Group o c []
  | some {ks : List TokenKind} : Balanced ks →
      Group o c (.punctuator o :: (ks ++ [.punctuator c]))

/-- An extension behind its keyword. Its body is skipped. -/
inductive Extension : List TokenKind → Prop where
  | scalar {n : String} {ks : List TokenKind} : Plain n → Directives ks →
      Extension (.name "scalar" :: .name n :: ks)
  | enum {n : String} {ks ls : List TokenKind} : Plain n → Directives ks →
      Group .braceL .braceR ls → Extension (.name "enum" :: .name n :: (ks ++ ls))
  | type {n : String} {is ks ls : List TokenKind} : Plain n → Interfaces is → Directives ks →
      Group .braceL .braceR ls → Extension (.name "type" :: .name n :: (is ++ (ks ++ ls)))
  | input {n : String} {ks ls : List TokenKind} : Plain n → Directives ks →
      Group .braceL .braceR ls → Extension (.name "input" :: .name n :: (ks ++ ls))
  | interface {n : String} {is ks ls : List TokenKind} : Plain n → Interfaces is → Directives ks →
      Group .braceL .braceR ls → Extension (.name "interface" :: .name n :: (is ++ (ks ++ ls)))
  | union {n : String} {ks ls : List TokenKind} : Plain n → Directives ks → Alternatives ls →
      Extension (.name "union" :: .name n :: (ks ++ ls))
  | schema {ks ls : List TokenKind} : Directives ks → Group .braceL .braceR ls →
      Extension (.name "schema" :: (ks ++ ls))

/-! ## Members -/

/-- A description, if there is one; an empty one describes nothing. -/
inductive Description : List Token → Option String → Prop where
  | none : Description [] .none
  | string {t : Token} {s : String} : t.string? = some s →
      Description [t] (if s = "" then .none else some s)

/-- A default value, if there is one, kept as its text. -/
inductive Default : List Token → Option String → Prop where
  | none : Default [] .none
  | value {e : Token} {vs : List Token} : e.kind = .punctuator .equals → Literal (kindsOf vs) →
      Default (e :: vs) (some (spanText vs))

/-- Parts of one form, one after the other. -/
inductive Many {α : Type} (P : List Token → α → Prop) : List Token → List α → Prop where
  | nil : Many P [] []
  | cons {ts us : List Token} {a : α} {as : List α} : P ts a → Many P us as →
      Many P (ts ++ us) (a :: as)

/-- An argument of a field, or a field of an input. -/
inductive InputValue : List Token → InputValueDef → Prop where
  | mk {ds tys vs dirs : List Token} {t colon : Token} {d v : Option String} {n : String}
      {type : TypeRef} : Description ds d → t.kind = .name n →
      colon.kind = .punctuator .colon → kindsOf tys = type.kinds → type.IsProper →
      Default vs v → Directives (kindsOf dirs) →
      InputValue (ds ++ t :: colon :: (tys ++ (vs ++ dirs))) ⟨n, d, type, v⟩

inductive Arguments : List Token → List InputValueDef → Prop where
  | none : Arguments [] []
  | list {o c : Token} {ts : List Token} {args : List InputValueDef} :
      o.kind = .punctuator .parenL → Many InputValue ts args → c.kind = .punctuator .parenR →
      Arguments (o :: (ts ++ [c])) args

inductive Field : List Token → FieldDef → Prop where
  | mk {ds us tys dirs : List Token} {t colon : Token} {d : Option String} {n : String}
      {args : List InputValueDef} {type : TypeRef} : Description ds d → t.kind = .name n →
      Arguments us args → colon.kind = .punctuator .colon → kindsOf tys = type.kinds →
      type.IsProper → Directives (kindsOf dirs) →
      Field (ds ++ t :: (us ++ colon :: (tys ++ dirs))) ⟨n, d, type, args⟩

inductive EnumValue : List Token → EnumValueDef → Prop where
  | mk {ds dirs : List Token} {t : Token} {d : Option String} {n : String} : Description ds d →
      t.kind = .name n → Plain n → Directives (kindsOf dirs) →
      EnumValue (ds ++ t :: dirs) ⟨n, d⟩

/-! Parts with any names, keywords included: what is read itself need not be plain, since only what
is passed over is looked through for the next definition. -/

namespace Free

inductive Directives : List TokenKind → Prop where
  | nil : Directives []
  | bare {ks : List TokenKind} (n : String) : Directives ks →
      Directives (.punctuator .atSign :: .name n :: ks)
  | withArguments {ks ls : List TokenKind} (n : String) : Balanced ks → Directives ls →
      Directives (.punctuator .atSign :: .name n :: .punctuator .parenL ::
        (ks ++ .punctuator .parenR :: ls))

/-- The interfaces behind the first, each behind an ampersand or, with a name that begins no
definition, behind nothing. -/
inductive MoreInterfaces : List TokenKind → Prop where
  | nil : MoreInterfaces []
  | amp {ks : List TokenKind} (n : String) : MoreInterfaces ks →
      MoreInterfaces (.punctuator .amp :: .name n :: ks)
  | bare {n : String} {ks : List TokenKind} : Plain n → MoreInterfaces ks →
      MoreInterfaces (.name n :: ks)

inductive Interfaces : List TokenKind → Prop where
  | none : Interfaces []
  | list {ks : List TokenKind} (n : String) : MoreInterfaces ks →
      Interfaces (.name "implements" :: .name n :: ks)
  | led {ks : List TokenKind} (n : String) : MoreInterfaces ks →
      Interfaces (.name "implements" :: .punctuator .amp :: .name n :: ks)

inductive InputValue : List Token → InputValueDef → Prop where
  | mk {ds tys vs dirs : List Token} {t colon : Token} {d v : Option String} {n : String}
      {type : TypeRef} : Description ds d → t.kind = .name n →
      colon.kind = .punctuator .colon → kindsOf tys = type.kinds → type.IsProper →
      Default vs v → Directives (kindsOf dirs) →
      InputValue (ds ++ t :: colon :: (tys ++ (vs ++ dirs))) ⟨n, d, type, v⟩

inductive Arguments : List Token → List InputValueDef → Prop where
  | none : Arguments [] []
  | list {o c : Token} {ts : List Token} {args : List InputValueDef} :
      o.kind = .punctuator .parenL → Many InputValue ts args → c.kind = .punctuator .parenR →
      Arguments (o :: (ts ++ [c])) args

inductive Field : List Token → FieldDef → Prop where
  | mk {ds us tys dirs : List Token} {t colon : Token} {d : Option String} {n : String}
      {args : List InputValueDef} {type : TypeRef} : Description ds d → t.kind = .name n →
      Arguments us args → colon.kind = .punctuator .colon → kindsOf tys = type.kinds →
      type.IsProper → Directives (kindsOf dirs) →
      Field (ds ++ t :: (us ++ colon :: (tys ++ dirs))) ⟨n, d, type, args⟩

inductive EnumValue : List Token → EnumValueDef → Prop where
  | mk {ds dirs : List Token} {t : Token} {d : Option String} {n : String} : Description ds d →
      t.kind = .name n → Plain n → Directives (kindsOf dirs) →
      EnumValue (ds ++ t :: dirs) ⟨n, d⟩

end Free

/-- A block of members in braces, if there is one. -/
inductive Block {α : Type} (P : List Token → α → Prop) : List Token → List α → Prop where
  | none : Block P [] []
  | members {o c : Token} {ts : List Token} {as : List α} : o.kind = .punctuator .braceL →
      Many P ts as → c.kind = .punctuator .braceR → Block P (o :: (ts ++ [c])) as

/-! ## Definitions -/

/-- The body of a definition behind its description, with its keyword in front. -/
inductive Body (d : Option String) : List Token → Option GraphClient.Definition → Prop where
  | scalar {k t : Token} {n : String} {dirs : List Token} : k.kind = .name "scalar" →
      t.kind = .name n → Plain n → Directives (kindsOf dirs) →
      Body d (k :: t :: dirs) (some (.scalar ⟨n, d⟩))
  | enum {k t : Token} {n : String} {dirs bs : List Token} {values : List EnumValueDef} :
      k.kind = .name "enum" → t.kind = .name n → Plain n → Directives (kindsOf dirs) →
      Block EnumValue bs values → Body d (k :: t :: (dirs ++ bs)) (some (.enum ⟨n, d, values⟩))
  | type {k t : Token} {n : String} {is dirs bs : List Token} {fields : List FieldDef} :
      k.kind = .name "type" → t.kind = .name n → Plain n → Interfaces (kindsOf is) →
      Directives (kindsOf dirs) → Block Field bs fields →
      Body d (k :: t :: (is ++ (dirs ++ bs))) (some (.object ⟨n, d, fields⟩))
  | input {k t : Token} {n : String} {dirs bs : List Token} {fields : List InputValueDef} :
      k.kind = .name "input" → t.kind = .name n → Plain n → Directives (kindsOf dirs) →
      Block InputValue bs fields → Body d (k :: t :: (dirs ++ bs)) (some (.input ⟨n, d, fields⟩))
  | interface {k t : Token} {n : String} {is dirs bs : List Token} {fields : List FieldDef} :
      k.kind = .name "interface" → t.kind = .name n → Plain n → Interfaces (kindsOf is) →
      Directives (kindsOf dirs) → Block Field bs fields →
      Body d (k :: t :: (is ++ (dirs ++ bs))) (some (.interface n))
  | union {k t : Token} {n : String} {dirs as : List Token} : k.kind = .name "union" →
      t.kind = .name n → Plain n → Directives (kindsOf dirs) → Alternatives (kindsOf as) →
      Body d (k :: t :: (dirs ++ as)) (some (.union n))
  | schema {k o c : Token} {dirs bs : List Token} : k.kind = .name "schema" →
      Directives (kindsOf dirs) → o.kind = .punctuator .braceL → Balanced (kindsOf bs) →
      c.kind = .punctuator .braceR → Body d (k :: (dirs ++ o :: (bs ++ [c]))) none
  | directive {k a t on : Token} {n : String} {gs rs ls : List Token} :
      k.kind = .name "directive" → a.kind = .punctuator .atSign → t.kind = .name n → Plain n →
      Group .parenL .parenR (kindsOf gs) → kindsOf rs ∈ [[], [.name "repeatable"]] →
      on.kind = .name "on" → Listed .pipe (kindsOf ls) →
      Body d (k :: a :: t :: (gs ++ (rs ++ on :: ls))) none
  | extension {k : Token} {es : List Token} : k.kind = .name "extend" → Extension (kindsOf es) →
      Body d (k :: es) none

/-- A definition: what a schema records of it, if anything. -/
inductive Definition : List Token → Option GraphClient.Definition → Prop where
  | mk {ds bs : List Token} {d : Option String} {o : Option GraphClient.Definition} :
      Description ds d → Body d bs o → Definition (ds ++ bs) o

/-- A document: what its definitions leave in a schema. -/
inductive Document : List Token → List GraphClient.Definition → Prop where
  | nil : Document [] []
  | cons {ts us : List Token} {o : Option GraphClient.Definition}
      {ds : List GraphClient.Definition} : Definition ts o → Document us ds →
      Document (ts ++ us) (o.toList ++ ds)

end Grammar

end GraphClient
