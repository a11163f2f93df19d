import GraphClient.Proofs.Document.Followed

/-!
# Recording while reading

A schema may be recorded while its document is read, in the order in which things are known: the
kind of a name in front of its block, the definition behind it (`Recorder.definition`). What is
recorded before an issue stays. Yet no block raises an issue, and all else is read before anything
is recorded, so it makes no difference to record a definition once it is read
(`Recorder.definition_eq`). An issue leaves nothing behind, unless it cuts short an interface or a
union, whose name is known by then (`Recorder.definition_atomic`). A document that is recorded while
it is read leaves its schema (`Recorder.document_eq`).
-/

namespace GraphClient

def Keyword.text : Keyword → String
  | .scalar => "scalar"
  | .enum => "enum"
  | .type => "type"
  | .input => "input"
  | .interface => "interface"
  | .union => "union"
  | .schema => "schema"
  | .directive => "directive"
  | .extend => "extend"

theorem Keyword.text_of_ofText? {w : String} {k : Keyword} (h : Keyword.ofText? w = some k) :
    w = k.text := by
  unfold ofText? at h
  split_ifs at h <;> cases h <;> assumption

/-- A reader of tokens that records in a schema. -/
def Recorder (α : Type) : Type := Schema → Cursor → Outcome α × Schema

namespace Recorder

variable {α β : Type}

/-- Goes on with a result where reading stopped, with what is recorded by then. -/
def andThen (r : Outcome α × Schema) (f : α → Recorder β) : Outcome β × Schema :=
  match r with
  | (⟨warnings, c, .ok a⟩, s) => ((f a s c).1.withEarlier warnings, (f a s c).2)
  | (⟨warnings, c, .error issue⟩, s) => (⟨warnings, c, .error issue⟩, s)

instance : Monad Recorder where
  pure a := fun s c => (⟨[], c, .ok a⟩, s)
  bind m f := fun s c => andThen (m s c) f

theorem bind_apply (m : Recorder α) (f : α → Recorder β) (s : Schema) (c : Cursor) :
    (m >>= f) s c = andThen (m s c) f := rfl

/-- Reads, and records nothing. -/
def read (p : Parse α) : Recorder α := fun s c => (p c, s)

def change (f : Schema → Schema) : Recorder Unit := fun s c => (⟨[], c, .ok ()⟩, f s)

theorem change_bind (f : Schema → Schema) (g : Unit → Recorder α) (s : Schema) (c : Cursor) :
    (change f >>= g) s c = g () (f s) c := rfl

/-- Records what a name stands for. -/
def setKind (name : String) (kind : TypeKind) : Recorder Unit :=
  change fun s => { s with kinds := s.kinds.insert name kind }

/-- Records a definition in its list. -/
def put (d : Definition) : Recorder Unit := change (·.record d)

section Definitions

open Parse

/-- Records a definition behind its keyword. -/
def body (description : Option String) : Keyword → Recorder Unit
  | .scalar => do
    let name ← read name
    read directives
    setKind name .scalar
    put (.scalar ⟨name, description⟩)
  | .enum => do
    let name ← read name
    read directives
    setKind name .enum
    let values ← read (block name enumValue)
    put (.enum ⟨name, description, values⟩)
  | .type => do
    let name ← read name
    read interfaces
    read directives
    setKind name .object
    let fields ← read (block name (field name))
    put (.object ⟨name, description, fields⟩)
  | .input => do
    let name ← read name
    read directives
    setKind name .inputObject
    let fields ← read (block name (inputField name))
    put (.input ⟨name, description, fields⟩)
  | .interface => do
    let name ← read name
    setKind name .interface
    read interfaces
    read directives
    read braces
  | .union => do
    let name ← read name
    setKind name .union
    read directives
    if ← read (accept .equals) then read alternatives
  | .schema => do
    read directives
    read braces
  | .directive => read directiveDefinition
  | .extend => do
    read advance
    read (move Cursor.toDefinition)

/-- Records a definition while it is read. -/
def definition : Recorder Unit := do
  let description ← read description
  match (← read peek).bind Token.keyword? with
  | none => read (fail .definition)
  | some keyword =>
    read advance
    body description keyword

end Definitions

/-- Records a definition once it is read. -/
def settle (s : Schema) :
    Outcome (Option GraphClient.Definition × Option Issue) → Outcome Unit × Schema
  | ⟨warnings, c, .ok (d, none)⟩ => (⟨warnings, c, .ok ()⟩, d.elim s s.add)
  | ⟨warnings, c, .ok (d, some issue)⟩ => (⟨warnings, c, .error issue⟩, d.elim s s.add)
  | ⟨warnings, c, .error issue⟩ => (⟨warnings, c, .error issue⟩, s)

/-- Reads a definition, and records it then. -/
def afterwards (p : Parse (Option GraphClient.Definition × Option Issue)) : Recorder Unit :=
  fun s c => settle s (p c)

section Afterwards

variable {p : Parse α}

theorem afterwards_bind {f : α → Parse (Option GraphClient.Definition × Option Issue)}
    {g : α → Recorder Unit} (h : ∀ a, g a = afterwards (f a)) :
    (read p >>= g) = afterwards (p >>= f) := by
  funext s c
  show andThen (p c, s) g = settle s ((p c).andThen f)
  rw [funext h]
  rcases p c with ⟨ws, d, i | a⟩
  · rfl
  · show ((settle s (f a d)).1.withEarlier ws, (settle s (f a d)).2) =
      settle s ((f a d).withEarlier ws)
    rcases f a d with ⟨vs, e, i | ⟨x, _ | i⟩⟩ <;> rfl

theorem read_bind {f : α → Parse β} {g : α → Recorder β} (h : ∀ a, g a = read (f a)) :
    (read p >>= g) = read (p >>= f) := by
  funext s c
  show andThen (p c, s) g = ((p c).andThen f, s)
  rw [funext h]
  rcases p c with ⟨ws, d, i | a⟩ <;> rfl

/-- What is recorded before the rest is read stays if an issue cuts the rest short. -/
theorem afterwards_tentative (d : GraphClient.Definition) (p : Parse Unit) :
    (change (·.add d) >>= fun _ => read p) =
      afterwards (do return (some d, ← Parse.tentative p)) := by
  funext s c
  rw [change_bind, read, afterwards]
  rcases h : p c with ⟨ws, e, i | u⟩
  · rw [Parse.tentative_error h]
    rfl
  · rw [Parse.tentative_ok h]
    rfl

theorem afterwards_nothing (p : Parse Unit) : read p = afterwards (do p; return (none, none)) := by
  funext s c
  rw [read, afterwards, Parse.bind_apply]
  rcases p c with ⟨ws, d, i | u⟩
  · rfl
  · show (Outcome.mk ws d (.ok u), s) = (Outcome.mk (ws ++ []) d (.ok ()), s)
    rw [List.append_nil]

theorem record_kinds (s : Schema) (kinds : Record TypeKind) (d : GraphClient.Definition) :
    Schema.record { s with kinds := kinds } d = { s.record d with kinds := kinds } := by
  cases d with
  | object d =>
    rw [Schema.record, Schema.record]
    split
    · rfl
    · split <;> rfl
  | _ => rfl

/-- Around a reader that raises no issue, it makes no difference when a kind is recorded. -/
theorem afterwards_answers {f : α → GraphClient.Definition} (hp : Parse.Answers p) (name : String)
    (kind : TypeKind) (hname : ∀ a, (f a).name = name) (hkind : ∀ a, (f a).kind = kind) :
    (do
      setKind name kind
      let a ← read p
      put (f a)) = afterwards (do return (some (f (← p)), none)) := by
  funext s c
  obtain ⟨ws, d, a, h⟩ := hp c
  have hrecord : Schema.record { s with kinds := s.kinds.insert name kind } (f a) =
      s.add (f a) := by
    rw [record_kinds, Schema.add, hname, hkind]
  have hread : read p { s with kinds := s.kinds.insert name kind } c =
      (⟨ws, d, .ok a⟩, { s with kinds := s.kinds.insert name kind }) := by rw [read, h]
  rw [afterwards, Parse.bind_apply, h, setKind, change_bind, bind_apply, hread]
  exact Prod.ext rfl hrecord

end Afterwards

section Definitions

open Parse

/-- Behind its keyword, a definition may as well be recorded once it is read. -/
theorem body_eq (d : Option String) (keyword : Keyword) :
    body d keyword = afterwards (Parse.body d keyword) := by
  cases keyword with
  | scalar => exact afterwards_bind fun n => afterwards_bind fun _ => rfl
  | enum =>
    exact afterwards_bind fun n => afterwards_bind fun _ =>
      @afterwards_answers _ _ (fun values => .enum ⟨n, d, values⟩) (answers_block n enumValue)
        n .enum (fun _ => rfl) fun _ => rfl
  | type =>
    exact afterwards_bind fun n => afterwards_bind fun _ => afterwards_bind fun _ =>
      @afterwards_answers _ _ (fun fields => .object ⟨n, d, fields⟩) (answers_block n (field n))
        n .object (fun _ => rfl) fun _ => rfl
  | input =>
    exact afterwards_bind fun n => afterwards_bind fun _ =>
      @afterwards_answers _ _ (fun fields => .input ⟨n, d, fields⟩)
        (answers_block n (inputField n)) n .inputObject (fun _ => rfl) fun _ => rfl
  | interface =>
    refine afterwards_bind fun n => ?_
    rw [← afterwards_tentative]
    refine congrArg (setKind n .interface >>= ·) (funext fun _ => ?_)
    exact read_bind fun _ => read_bind fun _ => rfl
  | union =>
    refine afterwards_bind fun n => ?_
    rw [← afterwards_tentative]
    refine congrArg (setKind n .union >>= ·) (funext fun _ => ?_)
    exact read_bind fun _ => read_bind fun b => by cases b <;> rfl
  | schema => exact afterwards_bind fun _ => afterwards_nothing braces
  | directive => exact afterwards_nothing directiveDefinition
  | extend => exact afterwards_bind fun _ => afterwards_nothing (move Cursor.toDefinition)

/-- It makes no difference to record a definition once it is read. -/
theorem definition_eq : definition = afterwards Parse.definition := by
  rw [Parse.definition_eq]
  refine afterwards_bind fun d => afterwards_bind fun t => ?_
  cases t.bind Token.keyword? with
  | none => rfl
  | some keyword => exact afterwards_bind fun _ => body_eq d keyword

end Definitions

/-! ## What is left behind -/

/-- Tokens of an interface or a union that is named. -/
inductive Names : List Token → String → TypeKind → Prop where
  | interface {ds rest : List Token} {k t : Token} {d : Option String} {n : String} :
      Grammar.Description ds d → k.kind = .name "interface" → t.kind = .name n →
      Names (ds ++ k :: t :: rest) n .interface
  | union {ds rest : List Token} {k t : Token} {d : Option String} {n : String} :
      Grammar.Description ds d → k.kind = .name "union" → t.kind = .name n →
      Names (ds ++ k :: t :: rest) n .union

/-- A schema after a definition: at most one list has grown by its last element, or the fields of a
root are others. -/
inductive Grows (s : Schema) : Schema → Prop where
  | unchanged (kinds : Record TypeKind) : Grows s { s with kinds := kinds }
  | scalar (d : ScalarDef) (kinds : Record TypeKind) :
      Grows s { s with scalars := s.scalars ++ [d], kinds := kinds }
  | enum (d : EnumDef) (kinds : Record TypeKind) :
      Grows s { s with enums := s.enums ++ [d], kinds := kinds }
  | object (d : ObjectDef) (kinds : Record TypeKind) :
      Grows s { s with objects := s.objects ++ [d], kinds := kinds }
  | input (d : InputDef) (kinds : Record TypeKind) :
      Grows s { s with inputs := s.inputs ++ [d], kinds := kinds }
  | queryFields (fields : List FieldDef) (kinds : Record TypeKind) :
      Grows s { s with queryFields := fields, kinds := kinds }
  | mutationFields (fields : List FieldDef) (kinds : Record TypeKind) :
      Grows s { s with mutationFields := fields, kinds := kinds }

theorem grows_add (s : Schema) (d : GraphClient.Definition) : Grows s (s.add d) := by
  cases d with
  | scalar d => exact .scalar d _
  | enum d => exact .enum d _
  | input d => exact .input d _
  | interface n => exact .unchanged _
  | union n => exact .unchanged _
  | object d =>
    rw [Schema.add, Schema.record]
    split
    · exact .queryFields d.fields _
    · split
      · exact .mutationFields d.fields _
      · exact .object d _

section Issues

open Parse

variable {c d : Cursor} {ws : List Warning} {x : Option GraphClient.Definition} {i : Issue}

/-- A reader of definitions that no issue cuts short. -/
def Uncut (p : Parse (Option GraphClient.Definition × Option Issue)) : Prop :=
  ∀ c ws d x i, p c ≠ ⟨ws, d, .ok (x, some i)⟩

theorem uncut_pure (x : Option GraphClient.Definition) : Uncut (pure (x, none)) := by
  rintro c ws d y i ⟨⟩

theorem uncut_bind {α : Type} {p : Parse α}
    {f : α → Parse (Option GraphClient.Definition × Option Issue)} (h : ∀ a, Uncut (f a)) :
    Uncut (p >>= f) := by
  intro c ws d x i hp
  obtain ⟨_, e, a, vs, -, hf, -⟩ := bind_eq_ok hp
  exact h a e vs d x i hf

theorem tentative_some {p : Parse Unit} {y : Option GraphClient.Definition}
    (h : (do return (y, ← tentative p) : Parse _) c = ⟨ws, d, .ok (x, some i)⟩) : x = y := by
  obtain ⟨_, e, r, vs, -, hr, -⟩ := bind_eq_ok h
  cases hr
  rfl

theorem name_eq_ok {n : String} (h : name c = ⟨ws, d, .ok n⟩) :
    c.rest.head?.bind Token.name? = some n := by
  cases hn : c.rest.head?.bind Token.name? with
  | none =>
    rw [name_of_none hn] at h
    cases h
  | some m =>
    rw [name_of_some hn] at h
    cases h
    rfl

/-- Only an interface or a union is cut short, behind its name. -/
theorem body_cut {description : Option String} {keyword : Keyword}
    (h : Parse.body description keyword c = ⟨ws, d, .ok (x, some i)⟩) :
    ∃ n, c.rest.head?.bind Token.name? = some n ∧
      (keyword = .interface ∧ x = some (.interface n) ∨
        keyword = .union ∧ x = some (.union n)) := by
  cases keyword with
  | scalar => exact absurd h (uncut_bind (fun _ => uncut_bind fun _ => uncut_pure _) _ _ _ _ _)
  | enum =>
    exact absurd h (uncut_bind (fun _ => uncut_bind fun _ => uncut_bind fun _ => uncut_pure _)
      _ _ _ _ _)
  | type =>
    exact absurd h (uncut_bind (fun _ => uncut_bind fun _ => uncut_bind fun _ => uncut_bind
      fun _ => uncut_pure _) _ _ _ _ _)
  | input =>
    exact absurd h (uncut_bind (fun _ => uncut_bind fun _ => uncut_bind fun _ => uncut_pure _)
      _ _ _ _ _)
  | interface =>
    obtain ⟨_, e, n, vs, hn, ht, -⟩ := bind_eq_ok h
    exact ⟨n, name_eq_ok hn, .inl ⟨rfl, tentative_some ht⟩⟩
  | union =>
    obtain ⟨_, e, n, vs, hn, ht, -⟩ := bind_eq_ok h
    exact ⟨n, name_eq_ok hn, .inr ⟨rfl, tentative_some ht⟩⟩
  | schema => exact absurd h (uncut_bind (fun _ => uncut_bind fun _ => uncut_pure _) _ _ _ _ _)
  | directive => exact absurd h (uncut_bind (fun _ => uncut_pure _) _ _ _ _ _)
  | extend => exact absurd h (uncut_bind (fun _ => uncut_bind fun _ => uncut_pure _) _ _ _ _ _)

/-- An interface or a union that is cut short is known by its name. -/
theorem definition_cut (h : Parse.definition c = ⟨ws, d, .ok (x, some i)⟩) :
    ∃ n, (Names c.rest n .interface ∧ x = some (.interface n)) ∨
      (Names c.rest n .union ∧ x = some (.union n)) := by
  obtain ⟨ds, description, hdesc, hrest⟩ := Grammar.exists_description c.rest
  obtain ⟨a, k, us, keyword, hus, -, hkey, hbody⟩ := definition_eq_ok h
  obtain ⟨w, hw, hkw⟩ := Option.bind_eq_some_iff.mp hkey
  obtain ⟨n, hn, hx⟩ := body_cut hbody
  obtain ⟨t, ht, htn⟩ := Option.bind_eq_some_iff.mp hn
  obtain ⟨rest, rfl⟩ := List.head?_eq_some_iff.mp ht
  have hkind := Token.name?_eq_some.mp hw
  rw [Keyword.text_of_ofText? hkw] at hkind
  rw [hrest, hus]
  rcases hx with ⟨rfl, rfl⟩ | ⟨rfl, rfl⟩
  · exact ⟨n, .inl ⟨.interface hdesc hkind (Token.name?_eq_some.mp htn), rfl⟩⟩
  · exact ⟨n, .inr ⟨.union hdesc hkind (Token.name?_eq_some.mp htn), rfl⟩⟩

end Issues

/-- An issue in a definition leaves nothing behind but the kind of a named interface or union. A
definition that is read adds to one list at most, at its end, or replaces the fields of a root. -/
theorem definition_atomic (s : Schema) (c : Cursor) :
    definition s c = settle s (Parse.definition c) ∧
      match definition s c with
      | (⟨_, _, .error _⟩, s') => s' = s ∨ ∃ name kind, Names c.rest name kind ∧
          s' = { s with kinds := s.kinds.insert name kind }
      | (⟨_, _, .ok _⟩, s') => Grows s s' := by
  have h : definition s c = settle s (Parse.definition c) := by rw [definition_eq, afterwards]
  refine ⟨h, ?_⟩
  rw [h]
  rcases hdef : Parse.definition c with ⟨ws, d, i | ⟨x, _ | i⟩⟩
  · exact .inl rfl
  · cases x with
    | none => exact .unchanged s.kinds
    | some x => exact grows_add s x
  · obtain ⟨n, ⟨hn, rfl⟩ | ⟨hn, rfl⟩⟩ := definition_cut hdef
    · exact .inr ⟨n, _, hn, rfl⟩
    · exact .inr ⟨n, _, hn, rfl⟩

/-! ## Documents -/

/-- Records a definition, and goes on at the next one behind an issue. -/
def entry : Recorder Unit := fun s c =>
  match definition s c with
  | (⟨warnings, c', .ok ()⟩, s') => (⟨warnings, c', .ok ()⟩, s')
  | (⟨warnings, c', .error issue⟩, s') =>
    ((Parse.recover c.rest.length issue c').withEarlier warnings, s')

/-- Records definitions up to the end. -/
def document (s : Schema) (c : Cursor) : List Warning × Schema :=
  if c.rest.isEmpty then ([], s)
  else
    let (o, s') := entry s c
    if o.cursor.rest.length < c.rest.length then
      let (warnings, s'') := document s' o.cursor
      (o.warnings ++ warnings, s'')
    else (o.warnings, s')
termination_by c.rest.length

theorem entry_eq (s : Schema) {c d : Cursor} {ws : List Warning}
    {x : Option GraphClient.Definition} (h : Parse.entry c = ⟨ws, d, .ok x⟩) :
    entry s c = (⟨ws, d, .ok ()⟩, x.elim s s.add) := by
  rw [entry, definition_eq, afterwards]
  rcases hdef : Parse.definition c with ⟨vs, e, i | ⟨y, _ | i⟩⟩
  · rw [Parse.entry_recovers (.inr ⟨hdef, rfl⟩)] at h
    cases h
    rfl
  · rw [Parse.entry_ok hdef] at h
    cases h
    rfl
  · rw [Parse.entry_recovers (.inl hdef)] at h
    cases h
    rfl

/-- Recording step by step leaves what the definitions leave that are read in the end. -/
theorem document_of_definitions (s : Schema) {c d : Cursor} {ws : List Warning}
    {ds : List GraphClient.Definition} (h : Parse.definitions c = ⟨ws, d, .ok ds⟩) :
    document s c = (ws, ds.foldl Schema.add s) := by
  induction hn : c.rest.length using Nat.strongRecOn generalizing s c ws ds with
  | _ n ih =>
    rw [document]
    cases hempty : c.rest.isEmpty with
    | true =>
      rw [Parse.definitions_stop (List.isEmpty_iff.mp hempty)] at h
      cases h
      rfl
    | false =>
      obtain ⟨vs, e, x, he⟩ := Parse.answers_entry c
      have hfold : x.toList.foldl Schema.add s = x.elim s s.add := by cases x <;> rfl
      rw [if_neg Bool.false_ne_true, entry_eq s he]
      by_cases hl : e.rest.length < c.rest.length
      · obtain ⟨us, f, as, has⟩ := Parse.answers_definitions e
        rw [Parse.definitions_step he hl, has] at h
        cases h
        simp only [if_pos hl]
        rw [ih _ (hn ▸ hl) _ has rfl]
        show (vs ++ us, _) = (vs ++ (us ++ []), (x.toList ++ as).foldl Schema.add s)
        rw [List.append_nil, List.foldl_append, hfold]
      · have hlast : Parse.definitions c = ⟨vs, e, .ok x.toList⟩ :=
          Parse.loop_last (by rw [hempty]; rfl) he hl
        rw [hlast] at h
        cases h
        simp only [if_neg hl, hfold]

/-- A document that is recorded while it is read leaves the schema of its definitions. -/
theorem document_eq (ts : List Token) : document Schema.empty ⟨0, ts⟩ =
    ((Document.ofTokens ts).warnings, (Document.ofTokens ts).schema) := by
  obtain ⟨ws, d, ds, h⟩ := Parse.answers_definitions ⟨0, ts⟩
  rw [document_of_definitions Schema.empty h, Document.ofTokens_eq h]
  rfl

end Recorder

end GraphClient
