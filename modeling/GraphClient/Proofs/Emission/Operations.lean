import GraphClient.Proofs.Document.TypeReferences
import GraphClient.Proofs.Emission.Bindings

/-!
# Tables of operations

`Emission.rows` reads a table of operations off a generated module, row by row: a name, the names
and types of arguments, and the type that is returned. Each type is a quoted text in it, which is
the text of a parsed type; so the types of a table are read again by the parser (`types?_row`).
-/

namespace GraphClient

/-! ## Quoted texts in a line -/

namespace Text

/-- The quoted texts in a line, in their order. -/
def quotedTexts : List Char → List String
  | [] => []
  | '"' :: cs =>
    match h : Json.stringFrom [] cs with
    | .ok (text, rest) =>
      have : rest.length ≤ cs.length := Json.length_stringFrom_le h
      text :: quotedTexts rest
    | .error _ => quotedTexts cs
  | _ :: cs => quotedTexts cs
termination_by cs => cs.length

variable {cs rest : List Char}

theorem quotedTexts_quote (text : String) (rest : List Char) :
    quotedTexts ((quote text).toList ++ rest) = text :: quotedTexts rest := by
  have hs : Json.stringFrom [] (quoteChars text.toList ++ '"' :: rest) = .ok (text, rest) :=
    Json.stringFrom_quote
  have hq : (quote text).toList ++ rest = '"' :: (quoteChars text.toList ++ '"' :: rest) := by
    rw [toList_quote]
    simp
  rw [hq, quotedTexts]
  split
  · rename_i h
    rw [hs] at h
    cases h
    rfl
  · rename_i h
    rw [hs] at h
    cases h

theorem quotedTexts_plain (h : '"' ∉ cs) : quotedTexts (cs ++ rest) = quotedTexts rest := by
  induction cs with
  | nil => rfl
  | cons c cs ih =>
    rw [List.mem_cons, not_or] at h
    rw [List.cons_append, quotedTexts, ih h.2]
    exact fun e => h.1 e.symm

end Text

/-! ## Rows -/

/-- A row of a table of operations, with the types in some form. -/
structure OperationRow (α : Type) where
  name : String
  arguments : List (String × α)
  returnType : α
  deriving DecidableEq, Repr

namespace OperationRow

/-- The names and types of arguments, and the type behind them. -/
def signature? : List String → Option (List (String × String) × String)
  | [] => none
  | [type] => some ([], type)
  | name :: type :: texts => (signature? texts).map fun r => ((name, type) :: r.1, r.2)

/-- The row with some texts. -/
def ofTexts? : List String → Option (OperationRow String)
  | [] => none
  | name :: texts => (signature? texts).map fun r => ⟨name, r.1, r.2⟩

def argumentType? (argument : String × String) : Option (String × TypeRef) :=
  (Document.typeIn? argument.2).map fun type => (argument.1, type)

/-- The types that the texts of a row stand for. -/
def types? (row : OperationRow String) : Option (OperationRow TypeRef) := do
  let arguments ← row.arguments.mapM argumentType?
  let returnType ← Document.typeIn? row.returnType
  return ⟨row.name, arguments, returnType⟩

end OperationRow

/-- A field as a row, with its types in some form. -/
def FieldDef.row {α : Type} (shown : TypeRef → α) (f : FieldDef) : OperationRow α :=
  ⟨f.name, f.arguments.map fun a => (a.name, shown a.type), shown f.type⟩

section Rows

open OperationRow

variable {f : FieldDef}

theorem mapM_map_eq_some {α β γ : Type} {f : β → Option γ} {g : α → β} {h : α → γ} {as : List α}
    (hf : ∀ a ∈ as, f (g a) = some (h a)) : (as.map g).mapM f = some (as.map h) := by
  induction as with
  | nil => rfl
  | cons a as ih =>
    rw [List.map_cons, List.mapM_cons, hf a List.mem_cons_self,
      ih fun b hb => hf b (List.mem_cons_of_mem a hb)]
    rfl

/-- The types of a field are those that its texts stand for. -/
theorem types?_row (h : f.Proper) : (f.row TypeRef.render).types? = some (f.row id) := by
  have hread {type : TypeRef} (ht : type.Proper) : Document.typeIn? type.render = some type :=
    Document.typeIn?_render ht.isName_baseName ht.isProper
  have harguments : (f.row TypeRef.render).arguments.mapM argumentType? =
      some (f.row id).arguments := mapM_map_eq_some fun a ha => by
    rw [argumentType?, hread (h.arguments a ha).type]
    rfl
  rw [types?, harguments, show (f.row TypeRef.render).returnType = f.type.render from rfl,
    hread h.type]
  rfl

theorem quotedTexts_argument (a : InputValueDef) (rest : List Char) :
    Text.quotedTexts ((Schema.argumentEntry a).toList ++ rest) =
      a.name :: a.type.render :: Text.quotedTexts rest := by
  simp only [Schema.argumentEntry, String.toList_append, List.append_assoc]
  rw [Text.quotedTexts_plain (by decide), Text.quotedTexts_quote,
    Text.quotedTexts_plain (by decide), Text.quotedTexts_quote, Text.quotedTexts_plain (by decide)]

theorem quotedTexts_arguments (as : List InputValueDef) (rest : List Char) :
    Text.quotedTexts ((", ".intercalate (as.map Schema.argumentEntry)).toList ++ rest) =
      (as.flatMap fun a => [a.name, a.type.render]) ++ Text.quotedTexts rest := by
  rw [String.toList_intercalate]
  induction as with
  | nil => rfl
  | cons a as ih =>
    cases as with
    | nil => simp [List.intercalate, quotedTexts_argument]
    | cons b as =>
      simp only [List.intercalate, List.map_cons, List.intersperse_cons_cons, List.flatten_cons,
        List.append_assoc] at ih ⊢
      rw [quotedTexts_argument, Text.quotedTexts_plain (by decide), ih]
      rfl

theorem signature?_arguments (as : List InputValueDef) (type : String) :
    signature? ((as.flatMap fun a => [a.name, a.type.render]) ++ [type]) =
      some (as.map fun a => (a.name, a.type.render), type) := by
  induction as with
  | nil => rfl
  | cons a as ih =>
    rw [List.flatMap_cons, List.append_assoc]
    show (signature? ((as.flatMap fun a => [a.name, a.type.render]) ++ [type])).map _ = _
    rw [ih]
    rfl

/-- The line of an operation is read as its row. -/
theorem ofTexts?_operationLine (f : FieldDef) :
    ofTexts? (Text.quotedTexts (Schema.operationLine f).toList) = some (f.row TypeRef.render) := by
  have hend : Text.quotedTexts " \x7d,".toList = [] := by
    have hplain := @Text.quotedTexts_plain " \x7d,".toList [] (by decide)
    rwa [List.append_nil, Text.quotedTexts] at hplain
  have htexts : Text.quotedTexts (Schema.operationLine f).toList =
      f.name :: ((f.arguments.flatMap fun a => [a.name, a.type.render]) ++ [f.type.render]) := by
    simp only [Schema.operationLine, String.toList_append, List.append_assoc]
    rw [Text.quotedTexts_plain (by decide), Text.quotedTexts_quote,
      Text.quotedTexts_plain (by decide), quotedTexts_arguments,
      Text.quotedTexts_plain (by decide), Text.quotedTexts_quote, hend]
  rw [htexts, ofTexts?, signature?_arguments]
  rfl

end Rows

/-! ## Tables -/

namespace Emission

/-- How a table begins that is bound to a name. -/
def opening (binding : String) : List Char := ("export const " ++ binding ++ " = [").toList

/-- The lines of a table: behind the last line that opens it, those that are indented. -/
def rowLines (binding : String) (e : Emission) : List (List Char) :=
  let behind := (Text.parts '\n' e.source.toList).reverse.takeWhile fun line =>
    !(opening binding).isPrefixOf line
  behind.reverse.takeWhile fun line => line.head? == some ' '

/-- The rows of the table that a module binds to a name. -/
def rows? (binding : String) (e : Emission) : Option (List (OperationRow String)) :=
  (e.rowLines binding).mapM fun line => OperationRow.ofTexts? (Text.quotedTexts line)

section Lines

variable {binding : String} {line : List Char} {fs : List FieldDef}

/-- A line of a table, or behind one, that opens none. -/
theorem opens_of_head (h : line.head? ≠ some 'e') : (opening binding).isPrefixOf line = false := by
  have ho : opening binding = 'e' :: ("xport const " ++ binding ++ " = [").toList := by
    simp [opening]
  rw [ho]
  cases line with
  | nil => rfl
  | cons c line =>
    have hne : ('e' == c) = false := beq_eq_false_iff_ne.mpr fun e => h (e ▸ rfl)
    simp [List.isPrefixOf, hne]

theorem takeWhile_behind {α : Type} {p q : α → Bool} {front rows back : List α} {head : α}
    (hhead : p head = true) (hrows : ∀ a ∈ rows, p a = false ∧ q a = true)
    (hback : ∀ a ∈ back, p a = false) (hend : ∀ a ∈ back.head?, q a = false) :
    (((front ++ head :: (rows ++ back)).reverse.takeWhile fun a => !p a).reverse.takeWhile q) =
      rows := by
  have hp : ∀ a ∈ (rows ++ back).reverse, (!p a) = true := by
    intro a ha
    rcases List.mem_append.mp (List.mem_reverse.mp ha) with ha | ha
    · simp [(hrows a ha).1]
    · simp [hback a ha]
  have hq : back.takeWhile q = [] := by
    cases back with
    | nil => rfl
    | cons b back => exact List.takeWhile_cons_of_neg (by simp [hend b rfl])
  rw [List.reverse_append, List.reverse_cons, List.append_assoc, List.takeWhile_append_of_pos hp,
    List.singleton_append, List.takeWhile_cons_of_neg (by simp [hhead]), List.append_nil,
    List.reverse_reverse, List.takeWhile_append_of_pos fun a ha => (hrows a ha).2, hq,
    List.append_nil]

/-- A table is its first line, its rows, and a line that closes it if there are any. -/
theorem operationLines_eq (binding : String) (fs : List FieldDef) : ∃ head back,
    Schema.operationLines binding fs = head :: (fs.map Schema.operationLine ++ back) ∧
      (opening binding).isPrefixOf head.toList = true ∧
      (∃ rest, head.toList = "export const ".toList ++ (binding.toList ++ rest)) ∧
      back.all (·.toList.head? == some ']') = true := by
  unfold Schema.operationLines
  split
  · rename_i he
    rw [List.isEmpty_iff.mp he]
    refine ⟨_, [], rfl, ?_, ?_, rfl⟩
    · simp [opening]
    · simp
  · refine ⟨_, ["] as const;"], rfl, ?_, ?_, by decide⟩
    · simp [opening]
    · simp

/-- A table is read off a module if no line behind it opens it again. -/
theorem rowLines_eq {e : Emission} {front back : List String}
    (hs : e.source.toList = written (front ++ (Schema.operationLines binding fs ++ back)))
    (ho : ∀ line ∈ front ++ (Schema.operationLines binding fs ++ back), OneLine line)
    (hback : ∀ line ∈ back, (opening binding).isPrefixOf line.toList = false)
    (hend : ∀ line ∈ back.head?, line.toList.head? ≠ some ' ') :
    e.rowLines binding = fs.map fun f => (Schema.operationLine f).toList := by
  obtain ⟨head, closing, hl, hhead, -, hclosing⟩ := operationLines_eq binding fs
  have hclosing : ∀ line ∈ closing, line.toList.head? = some ']' := by simpa using hclosing
  have hlines : Text.parts '\n' e.source.toList = front.map String.toList ++ head.toList ::
      ((fs.map fun f => (Schema.operationLine f).toList) ++
        ((closing ++ back).map String.toList ++ [[]])) := by
    rw [hs, parts_written ho, hl]
    simp
  have hrow : ∀ line ∈ fs.map fun f => (Schema.operationLine f).toList,
      (opening binding).isPrefixOf line = false ∧ (line.head? == some ' ') = true := by
    refine List.forall_mem_map.mpr fun f _ => ?_
    have hblank : (Schema.operationLine f).toList.head? = some ' ' := by
      simp [Schema.operationLine]
    exact ⟨opens_of_head (by rw [hblank]; decide), beq_iff_eq.mpr hblank⟩
  rw [rowLines, hlines]
  refine takeWhile_behind hhead hrow (fun line hm => ?_) fun line hm => ?_
  · simp only [List.map_append, List.mem_append, List.mem_map, List.mem_singleton] at hm
    rcases hm with (⟨l, hl, rfl⟩ | ⟨l, hl, rfl⟩) | rfl
    · exact opens_of_head (by rw [hclosing l hl]; decide)
    · exact hback l hl
    · exact opens_of_head (by decide)
  · cases closing with
    | cons l closing =>
      cases hm
      simp [hclosing l List.mem_cons_self]
    | nil =>
      cases back with
      | nil => cases hm; rfl
      | cons l back =>
        cases hm
        exact beq_eq_false_iff_ne.mpr (hend l rfl)

end Lines

end Emission

namespace Schema

variable {s : Schema}

theorem rows?_of_rowLines {binding : String} {e : Emission} {fs : List FieldDef}
    (h : e.rowLines binding = fs.map fun f => (operationLine f).toList) :
    e.rows? binding = some (fs.map (·.row TypeRef.render)) := by
  rw [Emission.rows?, h]
  exact mapM_map_eq_some fun f _ => ofTexts?_operationLine f

/-- The tables of a module have a row for each field of a root. -/
theorem WellFormed.rows?_emit (h : s.WellFormed) (options : EmitOptions) :
    (s.emit options).rows? "queryOperations" = some (s.queryFields.map (·.row TypeRef.render)) ∧
      (s.emit options).rows? "mutationOperations" =
        some (s.mutationFields.map (·.row TypeRef.render)) := by
  have ho := (h.binds_moduleLines options).oneLine
  have hs : (s.emit options).source.toList = written (s.moduleLines options) := toList_source
  obtain ⟨front, hfront⟩ : ∃ front, s.moduleLines options =
      front ++ operationLines "queryOperations" s.queryFields ++ [""] ++
        operationLines "mutationOperations" s.mutationFields := ⟨_, rfl⟩
  rw [hfront] at ho hs
  constructor
  · simp only [List.append_assoc, List.singleton_append] at ho hs
    refine rows?_of_rowLines (Emission.rowLines_eq hs ho ?_ (by simp))
    -- the other table begins with another name
    obtain ⟨head, closing, hl, -, ⟨rest, hhead⟩, hclosing⟩ :=
      Emission.operationLines_eq "mutationOperations" s.mutationFields
    have hclosing : ∀ line ∈ closing, line.toList.head? = some ']' := by simpa using hclosing
    rw [hl]
    simp only [List.forall_mem_cons, List.forall_mem_append, List.forall_mem_map]
    refine ⟨rfl, ?_, fun f _ => Emission.opens_of_head (by simp [operationLine]), fun line hm =>
      Emission.opens_of_head (by rw [hclosing line hm]; decide)⟩
    rw [hhead]
    rfl
  · rw [← List.append_nil (operationLines "mutationOperations" s.mutationFields)] at ho hs
    exact rows?_of_rowLines (Emission.rowLines_eq hs ho (List.forall_mem_nil _) (by simp))

end Schema

namespace Document

/-- The text of a type with a name at its leaf is read as the type if no mark that it is never null
stands behind another one, and not without a warning otherwise. So whatever the text of a schema,
the types in the tables of its operations stand for the types of its root fields and of their
arguments. -/
theorem typeRefs_reparse :
    (∀ type : TypeRef, IsName type.baseName →
      (type.IsProper → ofString (textOfField type.render) =
        ⟨[.object ⟨"X", none, [⟨"f", none, type, []⟩]⟩], []⟩) ∧
      (¬ type.IsProper → (ofString (textOfField type.render)).warnings ≠ [])) ∧
    ∀ (text : String) (options : EmitOptions),
      let s := (ofString text).schema
      let e := s.emit options
      e.rows? "queryOperations" = some (s.queryFields.map (·.row TypeRef.render)) ∧
        e.rows? "mutationOperations" = some (s.mutationFields.map (·.row TypeRef.render)) ∧
        ∀ f ∈ s.queryFields ++ s.mutationFields,
          (f.row TypeRef.render).types? = some (f.row id) := by
  refine ⟨fun type h => ⟨ofString_typed h, ofString_mistyped h⟩, fun text options => ?_⟩
  have hw := schema_wellFormed text
  obtain ⟨hqueries, hmutations⟩ := hw.rows?_emit options
  exact ⟨hqueries, hmutations, List.forall_mem_append.mpr
    ⟨fun f hf => types?_row (hw.queryFields f hf), fun f hf => types?_row (hw.mutationFields f hf)⟩⟩

/-- A list of users, and a number that is twice marked as never null. -/
theorem typeRefs_reparse_users :
    ofString "type X \x7b f: [User!]! \x7d" =
        ⟨[.object ⟨"X", none, [⟨"f", none, .nonNull (.list (.nonNull (.named "User"))), []⟩]⟩], []⟩ ∧
      (ofString "type X \x7b f: [Int!!] \x7d").warnings ≠ [] := by
  obtain ⟨htypes, -⟩ := typeRefs_reparse
  exact ⟨(htypes (.nonNull (.list (.nonNull (.named "User")))) (by decide)).1
      ⟨rfl, rfl, trivial⟩,
    (htypes (.list (.nonNull (.nonNull (.named "Int")))) (by decide)).2 nofun⟩

end Document

end GraphClient
