import GraphClient.Schema

/-!
# What a schema records

`Schema.Records s ds`: the schema `s` holds the definitions `ds` and nothing else. Each list is
that of the definitions of its kind, in their order; the fields of a root are those of its last
definition, and the last definition of a name decides what it stands for.
-/

namespace GraphClient

namespace Definition

def scalar? : Definition → Option ScalarDef
  | scalar d => some d
  | _ => none

def enum? : Definition → Option EnumDef
  | enum d => some d
  | _ => none

def input? : Definition → Option InputDef
  | input d => some d
  | _ => none

/-- An object that is no root. -/
def object? : Definition → Option ObjectDef
  | object d => if d.name = Schema.queryRoot ∨ d.name = Schema.mutationRoot then none else some d
  | _ => none

/-- The fields of the object of a name. -/
def fieldsOf? (name : String) : Definition → Option (List FieldDef)
  | object d => if d.name = name then some d.fields else none
  | _ => none

/-- What a definition says of a name. -/
def kindOf? (name : String) (d : Definition) : Option TypeKind :=
  if d.name = name then some d.kind else none

theorem name_of_object? {d : Definition} {o : ObjectDef} (h : d.object? = some o) :
    o.name = d.name := by
  cases d with
  | object d =>
    rw [object?] at h
    split at h
    · cases h
    · cases h
      rfl
  | _ => cases h

end Definition

/-- The last result of a function along a list. -/
def lastSome? {α β : Type} (f : α → Option β) (as : List α) : Option β := as.reverse.findSome? f

theorem lastSome?_append {α β : Type} (f : α → Option β) (as bs : List α) :
    lastSome? f (as ++ bs) = (lastSome? f bs).or (lastSome? f as) := by
  simp [lastSome?, List.findSome?_append]

theorem lastSome?_concat {α β : Type} (f : α → Option β) (as : List α) (a : α) :
    lastSome? f (as ++ [a]) = (f a).or (lastSome? f as) := by
  rw [lastSome?_append]
  simp [lastSome?]

theorem lastSome?_eq_none {α β : Type} {f : α → Option β} {as : List α}
    (h : ∀ a ∈ as, f a = none) : lastSome? f as = none := by
  rw [lastSome?, List.findSome?_eq_none_iff]
  exact fun a ha => h a (List.mem_reverse.mp ha)

theorem filterMap_concat {α β : Type} (f : α → Option β) (as : List α) (a : α) :
    (as ++ [a]).filterMap f = as.filterMap f ++ (f a).toList := by
  rw [List.filterMap_append]
  cases h : f a <;> simp [h]

namespace Schema

/-- The kind of a name that no definition mentions. -/
def builtinKind? (name : String) : Option TypeKind :=
  if isBuiltinScalar name then some .scalar else none

structure Records (s : Schema) (ds : List Definition) : Prop where
  scalars : s.scalars = ds.filterMap Definition.scalar?
  enums : s.enums = ds.filterMap Definition.enum?
  objects : s.objects = ds.filterMap Definition.object?
  inputs : s.inputs = ds.filterMap Definition.input?
  queryFields : s.queryFields = (lastSome? (·.fieldsOf? queryRoot) ds).getD []
  mutationFields : s.mutationFields = (lastSome? (·.fieldsOf? mutationRoot) ds).getD []
  kinds : s.kinds = ds.foldl (fun r d => r.insert d.name d.kind) empty.kinds
  kind? : ∀ name, s.kind? name = (lastSome? (·.kindOf? name) ds).or (builtinKind? name)

theorem mutationRoot_ne : mutationRoot ≠ queryRoot := by decide

theorem kind?_empty (name : String) : empty.kind? name = builtinKind? name := by
  have h : Record.get? Record.empty name = (none : Option TypeKind) := rfl
  simp only [kind?, empty, Record.ofPairs, builtinScalars, List.map_cons, List.map_nil,
    List.foldl_cons, List.foldl_nil, Record.get?_insert, h, builtinKind?, isBuiltinScalar,
    List.contains_cons, List.contains_nil]
  grind

section Record

variable (s : Schema) (d : Definition)

theorem record_scalars : (s.record d).scalars = s.scalars ++ d.scalar?.toList := by
  cases d <;> simp only [record, Definition.scalar?] <;> (repeat' split) <;> simp

theorem record_enums : (s.record d).enums = s.enums ++ d.enum?.toList := by
  cases d <;> simp only [record, Definition.enum?] <;> (repeat' split) <;> simp

theorem record_inputs : (s.record d).inputs = s.inputs ++ d.input?.toList := by
  cases d <;> simp only [record, Definition.input?] <;> (repeat' split) <;> simp

theorem record_objects : (s.record d).objects = s.objects ++ d.object?.toList := by
  cases d with
  | object d =>
    by_cases hq : d.name = queryRoot
    · simp [record, Definition.object?, hq]
    · by_cases hm : d.name = mutationRoot <;>
        simp [record, Definition.object?, hq, hm, mutationRoot_ne]
  | _ => simp [record, Definition.object?]

theorem record_queryFields :
    (s.record d).queryFields = (d.fieldsOf? queryRoot).getD s.queryFields := by
  cases d with
  | object d =>
    by_cases hq : d.name = queryRoot
    · simp [record, Definition.fieldsOf?, hq]
    · by_cases hm : d.name = mutationRoot <;>
        simp [record, Definition.fieldsOf?, hq, hm, mutationRoot_ne]
  | _ => rfl

theorem record_mutationFields :
    (s.record d).mutationFields = (d.fieldsOf? mutationRoot).getD s.mutationFields := by
  cases d with
  | object d =>
    by_cases hq : d.name = queryRoot
    · simp [record, Definition.fieldsOf?, hq, mutationRoot_ne.symm]
    · by_cases hm : d.name = mutationRoot <;>
        simp [record, Definition.fieldsOf?, hq, hm, mutationRoot_ne]
  | _ => rfl

end Record

theorem records_empty : empty.Records [] :=
  ⟨rfl, rfl, rfl, rfl, rfl, rfl, rfl, kind?_empty⟩

/-- One more definition goes to the end of the list of its kind. -/
theorem Records.add {s : Schema} {ds : List Definition} (h : s.Records ds) (d : Definition) :
    (s.add d).Records (ds ++ [d]) where
  scalars := by rw [filterMap_concat, ← h.scalars]; exact record_scalars s d
  enums := by rw [filterMap_concat, ← h.enums]; exact record_enums s d
  objects := by rw [filterMap_concat, ← h.objects]; exact record_objects s d
  inputs := by rw [filterMap_concat, ← h.inputs]; exact record_inputs s d
  queryFields := by
    rw [lastSome?_concat, Option.getD_or, ← h.queryFields]
    exact record_queryFields s d
  mutationFields := by
    rw [lastSome?_concat, Option.getD_or, ← h.mutationFields]
    exact record_mutationFields s d
  kinds := by
    rw [List.foldl_append, ← h.kinds]
    rfl
  kind? name := by
    rw [kind?_add, h.kind?, lastSome?_concat]
    by_cases hd : d.name = name
    · simp [Definition.kindOf?, hd]
    · simp [Definition.kindOf?, hd, Ne.symm hd]

theorem records_ofDefinitions (ds : List Definition) : (ofDefinitions ds).Records ds := by
  have h : ∀ es : List Definition, (ofDefinitions es.reverse).Records es.reverse := by
    intro es
    induction es with
    | nil => exact records_empty
    | cons d es ih =>
      rw [List.reverse_cons, ofDefinitions_concat]
      exact ih.add d
  simpa using h ds.reverse

end Schema

end GraphClient
