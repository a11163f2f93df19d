import GraphClient.Proofs.Document.Names

/-!
# Well-formed schemas

A schema is well formed if its definitions are proper and its kinds agree with its lists: what a
list holds has a kind, and a name of a kind is in the list of this kind, or built in, or a root.
This holds of the schema of proper definitions (`wellFormed_ofDefinitions`), so of the schema of
every text (`schema_wellFormed`). An input field has no arguments and a field of an object no
default value, by their types.
-/

namespace GraphClient

namespace Schema

/-- A definition stands in one of the lists of a schema. -/
def Lists (s : Schema) : Definition → Prop
  | .scalar d => d ∈ s.scalars
  | .enum d => d ∈ s.enums
  | .object d => d ∈ s.objects
  | .input d => d ∈ s.inputs
  | .interface _ | .union _ => False

def IsRoot (name : String) : Prop := name = queryRoot ∨ name = mutationRoot

structure WellFormed (s : Schema) : Prop where
  listed : ∀ d, s.Lists d → d.Proper ∧ (s.kind? d.name).isSome
  noRoot : ∀ d ∈ s.objects, ¬ IsRoot d.name
  queryFields : ∀ f ∈ s.queryFields, f.Proper
  mutationFields : ∀ f ∈ s.mutationFields, f.Proper
  builtin : ∀ name ∈ builtinScalars, (s.kind? name).isSome
  kindName : ∀ name, (s.kind? name).isSome → IsName name
  scalarKind : ∀ name, s.kind? name = some .scalar →
    name ∈ builtinScalars ∨ ∃ d ∈ s.scalars, d.name = name
  enumKind : ∀ name, s.kind? name = some .enum → ∃ d ∈ s.enums, d.name = name
  inputKind : ∀ name, s.kind? name = some .inputObject → ∃ d ∈ s.inputs, d.name = name
  objectKind : ∀ name, s.kind? name = some .object →
    IsRoot name ∨ ∃ d ∈ s.objects, d.name = name

theorem lastSome?_mem {α β : Type} {f : α → Option β} {as : List α} {b : β}
    (h : lastSome? f as = some b) : ∃ a ∈ as, f a = some b := by
  obtain ⟨a, ha, hb⟩ := List.exists_of_findSome?_eq_some h
  exact ⟨a, List.mem_reverse.mp ha, hb⟩

/-- A definition that goes to a list: interfaces and unions are known by their kind alone, and
roots by their fields. -/
def IsListed : Definition → Prop
  | .scalar _ | .enum _ | .input _ => True
  | .object d => ¬ IsRoot d.name
  | .interface _ | .union _ => False

section Records

variable {s : Schema} {ds : List Definition} {d : Definition} {name : String} {k : TypeKind}

/-- What is taken out of some definitions, if it is taken out of one form only. -/
theorem mem_taken {α : Type} {take : Definition → Option α} {as : List α} {x : α}
    (has : as = ds.filterMap take) (hd : ∀ e, take e = some x ↔ e = d) : x ∈ as ↔ d ∈ ds := by
  simp only [has, List.mem_filterMap, hd, exists_eq_right]

theorem Records.lists_iff (h : s.Records ds) : s.Lists d ↔ d ∈ ds ∧ IsListed d := by
  cases d with
  | scalar x =>
    rw [Lists, IsListed, and_true]
    exact mem_taken h.scalars fun e => by cases e <;> simp [Definition.scalar?]
  | enum x =>
    rw [Lists, IsListed, and_true]
    exact mem_taken h.enums fun e => by cases e <;> simp [Definition.enum?]
  | input x =>
    rw [Lists, IsListed, and_true]
    exact mem_taken h.inputs fun e => by cases e <;> simp [Definition.input?]
  | object x =>
    rw [Lists, h.objects, List.mem_filterMap]
    constructor
    · rintro ⟨e, he, hx⟩
      cases e with
      | object y =>
        rw [Definition.object?] at hx
        split at hx
        · cases hx
        · rename_i hr
          cases hx
          exact ⟨he, hr⟩
      | _ => cases hx
    · rintro ⟨hd, hr⟩
      exact ⟨_, hd, if_neg hr⟩
  | interface n => exact ⟨False.elim, And.right⟩
  | union n => exact ⟨False.elim, And.right⟩

/-- A name of a kind is that of a definition of the kind, or built in. -/
theorem Records.of_kind? (h : s.Records ds) (hk : s.kind? name = some k) :
    (∃ d ∈ ds, d.name = name ∧ d.kind = k) ∨ name ∈ builtinScalars ∧ k = .scalar := by
  rw [h.kind?, Option.or_eq_some_iff] at hk
  rcases hk with hk | ⟨-, hk⟩
  · obtain ⟨d, hd, hn⟩ := lastSome?_mem hk
    rw [Definition.kindOf?] at hn
    split at hn
    · rename_i he
      exact .inl ⟨d, hd, he, Option.some.inj hn⟩
    · cases hn
  · rw [builtinKind?] at hk
    split at hk
    · rename_i hb
      exact .inr ⟨by simpa [isBuiltinScalar] using hb, (Option.some.inj hk).symm⟩
    · cases hk

/-- The name of a definition has a kind, be it that of a later one. -/
theorem Records.kind?_isSome (h : s.Records ds) (hd : d ∈ ds) : (s.kind? d.name).isSome := by
  rw [h.kind?, Option.isSome_or, Bool.or_eq_true]
  refine .inl (List.findSome?_isSome_iff.mpr ⟨d, List.mem_reverse.mpr hd, ?_⟩)
  rw [Definition.kindOf?, if_pos rfl]
  rfl

/-- The fields of a root are those of an object. -/
theorem object_of_root {root : String} {f : FieldDef}
    (hf : f ∈ (lastSome? (·.fieldsOf? root) ds).getD []) : ∃ o, .object o ∈ ds ∧ f ∈ o.fields := by
  cases hl : lastSome? (·.fieldsOf? root) ds with
  | none =>
    rw [hl] at hf
    cases hf
  | some fields =>
    rw [hl, Option.getD_some] at hf
    obtain ⟨d, hd, hfields⟩ := lastSome?_mem hl
    cases d with
    | object o =>
      rw [Definition.fieldsOf?] at hfields
      split at hfields
      · cases hfields
        exact ⟨o, hd, hf⟩
      · cases hfields
    | _ => cases hfields

theorem proper_of_root (hp : ∀ d ∈ ds, d.Proper) {root : String} {f : FieldDef}
    (hf : f ∈ (lastSome? (·.fieldsOf? root) ds).getD []) : f.Proper := by
  obtain ⟨o, ho, hf⟩ := object_of_root hf
  exact (hp _ ho).members f hf

/-- The schema of proper definitions is well formed. -/
theorem Records.wellFormed (h : s.Records ds) (hp : ∀ d ∈ ds, d.Proper) : s.WellFormed := by
  have hkind : ∀ {name k}, s.kind? name = some k → k ≠ .scalar →
      ∃ d ∈ ds, d.name = name ∧ d.kind = k := fun hk hne =>
    (h.of_kind? hk).resolve_right fun hb => hne hb.2
  constructor
  case listed =>
    intro d hd
    have hmem := (h.lists_iff.mp hd).1
    exact ⟨hp d hmem, h.kind?_isSome hmem⟩
  case noRoot => exact fun d hd => (h.lists_iff (d := .object d).mp hd).2
  case queryFields => exact fun f hf => proper_of_root hp (h.queryFields ▸ hf)
  case mutationFields => exact fun f hf => proper_of_root hp (h.mutationFields ▸ hf)
  case builtin =>
    intro name hn
    have hb : isBuiltinScalar name = true := by simpa [isBuiltinScalar] using hn
    rw [h.kind?, Option.isSome_or, builtinKind?, if_pos hb, Option.isSome_some, Bool.or_true]
  case kindName =>
    intro name hs
    obtain ⟨k, hk⟩ := Option.isSome_iff_exists.mp hs
    rcases h.of_kind? hk with ⟨d, hd, rfl, -⟩ | ⟨hb, -⟩
    · exact (hp d hd).name
    · exact (show ∀ n ∈ builtinScalars, IsName n by decide) name hb
  case scalarKind =>
    intro name hk
    rcases h.of_kind? hk with ⟨d, hd, hn, hkind⟩ | ⟨hb, -⟩
    · cases d <;> cases hkind
      exact .inr ⟨_, h.lists_iff.mpr ⟨hd, trivial⟩, hn⟩
    · exact .inl hb
  case enumKind =>
    intro name hk
    obtain ⟨d, hd, hn, hkind⟩ := hkind hk (by decide)
    cases d <;> cases hkind
    exact ⟨_, h.lists_iff.mpr ⟨hd, trivial⟩, hn⟩
  case inputKind =>
    intro name hk
    obtain ⟨d, hd, hn, hkind⟩ := hkind hk (by decide)
    cases d <;> cases hkind
    exact ⟨_, h.lists_iff.mpr ⟨hd, trivial⟩, hn⟩
  case objectKind =>
    intro name hk
    obtain ⟨d, hd, hn, hkind⟩ := hkind hk (by decide)
    cases d with
    | object o =>
      by_cases hr : IsRoot name
      · exact .inl hr
      · exact .inr ⟨o, h.lists_iff.mpr ⟨hd, fun he => hr (hn ▸ he)⟩, hn⟩
    | _ => cases hkind

end Records

end Schema

/-- Whatever the text, its schema is well formed. -/
theorem Document.schema_wellFormed (text : String) :
    (Document.ofString text).schema.WellFormed :=
  (Schema.records_ofDefinitions _).wellFormed (ofString_proper text)

end GraphClient
