import GraphClient.Proofs.Emission.Comments
import GraphClient.Proofs.Emission.Expressions
import GraphClient.Proofs.Document.Names
import GraphClient.Proofs.Record
import Mathlib

/-!
# Full types in a generated module

`FullType.declarations` reads the declarations of full types that stand at the front of a text:
the fields of each are those of an object literal (`Record.literal`), with comments between them.
Behind its title a generated module declares the full type of every object of the schema, so what
is read back there is what `Schema.fullType?` gives (`Schema.declared_fullType`).
-/

namespace GraphClient

open Comment

/-- The record of an object literal: a key that comes again keeps its place and gets the later
value, and the reserved key sets no field. -/
def Record.literal {α : Type} (pairs : List (String × α)) : Record α :=
  pairs.foldl (fun r p => if p.1 = reservedKey then r else r.insert p.1 p.2) empty

theorem length_dropPrefix?_le {cs front rest : List Char} (h : cs.dropPrefix? front = some rest) :
    rest.length ≤ cs.length := by
  obtain ⟨_, rfl, _⟩ := List.dropPrefix?_eq_some_iff.mp h
  rw [List.length_append]
  exact Nat.le_add_left _ _

theorem dropPrefix?_self (front rest : List Char) : (front ++ rest).dropPrefix? front = some rest :=
  List.dropPrefix?_append_of_beq rest (by simp)

namespace FullType

/-- Reads a field of an object literal and the comma behind it. -/
def field? (cs : List Char) : Option ((String × Descriptor) × List Char) := do
  let key := String.ofList (cs.takeWhile isNameContinue)
  let value ← (cs.dropWhile isNameContinue).dropPrefix? [':']
  let (d, rest) ← Descriptor.read? (skip value)
  let rest ← rest.dropPrefix? [',']
  if IsName key then return ((key, d), rest) else none

theorem length_field?_lt {cs rest : List Char} {f : String × Descriptor}
    (h : field? cs = some (f, rest)) : rest.length < cs.length := by
  simp only [field?, Option.bind_eq_bind, Option.bind_eq_some_iff] at h
  obtain ⟨value, hv, ⟨d, tail⟩, hd, behind, hb, h⟩ := h
  split at h
  · cases h
    have hk := (List.dropWhile_sublist isNameContinue (l := cs)).length_le
    have hv := length_dropPrefix?_le hv
    have hs := length_skip_le value
    have hd : tail.length < _ := Descriptor.length_read?_lt hd
    have hb : _ ≤ tail.length := length_dropPrefix?_le hb
    omega
  · cases h

/-- Reads the fields of an object literal and the brace behind them. -/
def fields? (cs : List Char) : Option (List (String × Descriptor) × List Char) :=
  match _hs : skip cs with
  | '\x7d' :: rest => some ([], rest)
  | text =>
    match _hf : field? text with
    | some (f, rest) => (fields? rest).map fun r => (f :: r.1, r.2)
    | none => none
termination_by cs.length
decreasing_by
  have hs := length_skip_le cs
  have hf := length_field?_lt _hf
  rw [_hs] at hs
  omega

theorem length_fields?_lt {cs rest : List Char} {fs : List (String × Descriptor)}
    (h : fields? cs = some (fs, rest)) : rest.length < cs.length := by
  fun_induction fields? cs generalizing fs rest with
  | case1 cs tail hs =>
    cases h
    have := length_skip_le cs
    rw [hs] at this
    exact this
  | case2 cs f tail hs hf ih =>
    obtain ⟨r, hr, he⟩ := Option.map_eq_some_iff.mp h
    cases he
    have hskip := length_skip_le cs
    have hfield := length_field?_lt hf
    have hrest := ih hr
    omega
  | case3 => cases h

/-- Reads the declaration of a full type, behind blanks and comments. -/
def declaration? (cs : List Char) : Option (FullType × List Char) := do
  let binding ← (skip cs).dropPrefix? "export const ".toList
  let call ← (binding.dropWhile isNameContinue).dropPrefix? " = fullType(".toList
  let (name, rest) ← Text.quoted? call
  let body ← rest.dropPrefix? ", \x7b".toList
  let (fields, rest) ← fields? body
  let rest ← rest.dropPrefix? ");".toList
  return (⟨name, Record.literal fields⟩, rest)

theorem length_declaration?_lt {cs rest : List Char} {full : FullType}
    (h : declaration? cs = some (full, rest)) : rest.length < cs.length := by
  simp only [declaration?, Option.bind_eq_bind, Option.bind_eq_some_iff] at h
  obtain ⟨binding, hbinding, call, hcall, ⟨name, comma⟩, hname, body, hbody, ⟨fields, close⟩,
    hfields, behind, hbehind, h⟩ := h
  cases h
  have h₀ := length_skip_le cs
  have h₁ := length_dropPrefix?_le hbinding
  have h₂ := (List.dropWhile_sublist isNameContinue (l := binding)).length_le
  have h₃ := length_dropPrefix?_le hcall
  have h₄ : comma.length ≤ _ := Text.length_quoted?_le hname
  have h₅ : _ ≤ comma.length := length_dropPrefix?_le hbody
  have h₆ : close.length < _ := length_fields?_lt hfields
  have h₇ : _ ≤ close.length := length_dropPrefix?_le hbehind
  omega

/-- Reads the declarations of full types at the front of a text. -/
def declarations (cs : List Char) : List FullType :=
  match _h : declaration? cs with
  | some (full, rest) => full :: declarations rest
  | none => []
termination_by cs.length
decreasing_by exact length_declaration?_lt _h

/-! ## What is written -/

section Fields

variable {s : Schema} {timestamps : List String} {rest : List Char}

theorem skip_name {name : String} (h : IsName name) :
    skip (name.toList ++ rest) = name.toList ++ rest := by
  obtain ⟨c, cs, hn, hc, -⟩ := h
  rw [hn]
  refine skip_eq_self fun d hd => ?_
  cases hd
  refine ⟨?_, ?_, ?_⟩ <;> (rintro rfl; revert hc; decide)

/-- A field is read back, whatever follows its comma. -/
theorem field?_line {name : String} (h : IsName name) (d : Descriptor) :
    field? (name.toList ++ ':' :: ' ' :: (d.render.toList ++ ',' :: rest)) =
      some ((name, d), rest) := by
  have hw := h.continues
  have he : EndsWord (':' :: ' ' :: (d.render.toList ++ ',' :: rest)) := endsWord_cons (by decide)
  have hread := @Descriptor.read?_render (',' :: rest) d (endsWord_cons (by decide))
  have hd : skip (' ' :: (d.render.toList ++ ',' :: rest)) = d.render.toList ++ ',' :: rest := by
    rw [skip]
    refine skip_eq_self fun c hc => ?_
    rw [Descriptor.head?_of_read? hread] at hc
    cases hc
    decide
  have hcolon : (':' :: ' ' :: (d.render.toList ++ ',' :: rest)).dropPrefix? [':'] =
      some (' ' :: (d.render.toList ++ ',' :: rest)) := dropPrefix?_self [':'] _
  have hcomma : (',' :: rest).dropPrefix? [','] = some rest := dropPrefix?_self [','] _
  simp only [field?, takeWhile_word hw he, dropWhile_word hw he, String.ofList_toList, hcolon, hd,
    hread, hcomma, Option.bind_eq_bind, Option.bind_some, if_pos h]
  rfl

theorem fields?_nil {cs : List Char} (hs : skip cs = '\x7d' :: rest) :
    fields? cs = some ([], rest) := by
  rw [fields?]
  split
  · rename_i h
    rw [hs] at h
    cases h
    rfl
  · rename_i h
    exact absurd hs (h rest)

theorem fields?_cons {cs text : List Char} {f : String × Descriptor} (hs : skip cs = text)
    (hb : text.head? ≠ some '\x7d') (hf : field? text = some (f, rest)) :
    fields? cs = (fields? rest).map fun r => (f :: r.1, r.2) := by
  subst hs
  rw [fields?]
  split
  · rename_i h
    exact absurd (by rw [h]; rfl) hb
  · split
    · rename_i h
      rw [hf] at h
      cases h
      rfl
    · rename_i h
      rw [hf] at h
      cases h

/-- The lines of fields with the comments above them. -/
def rows (s : Schema) (timestamps : List String) (fs : List FieldDef) : List String :=
  fs.flatMap fun f => docComment "  " f.description ++ [s.fullFieldLine timestamps f]

theorem written_rows_cons (f : FieldDef) (fs : List FieldDef) :
    written (rows s timestamps (f :: fs)) ++ rest =
      written (docComment "  " f.description) ++ ([' ', ' '] ++ (f.name.toList ++ ':' :: ' ' ::
        ((s.descriptor timestamps f.type).render.toList ++ ',' :: '\n' ::
          (written (rows s timestamps fs) ++ rest)))) := by
  simp [rows, Schema.fullFieldLine]

/-- The fields of a type are read back, with the descriptors of their types. -/
theorem fields?_rows {fs : List FieldDef} (hp : ∀ f ∈ fs, IsName f.name) :
    fields? ('\n' :: (written (rows s timestamps fs) ++ '\x7d' :: rest)) =
      some (fs.map fun f => (f.name, s.descriptor timestamps f.type), rest) := by
  induction fs with
  | nil =>
    refine fields?_nil ?_
    rw [skip]
    exact skip_eq_self fun c hc => by cases hc; decide
  | cons f fs ih =>
    have hf := hp f List.mem_cons_self
    have hskip : skip ('\n' :: (written (rows s timestamps (f :: fs)) ++ '\x7d' :: rest)) =
        f.name.toList ++ ':' :: ' ' :: ((s.descriptor timestamps f.type).render.toList ++ ',' ::
          '\n' :: (written (rows s timestamps fs) ++ '\x7d' :: rest)) := by
      rw [skip, written_rows_cons, skip_docComment (by simp [Blank]),
        skip_blank (by simp [Blank]), skip_name hf]
    have hbrace : ∀ tail, (f.name.toList ++ tail).head? ≠ some '\x7d' := by
      obtain ⟨c, cs, hn, hc, -⟩ := hf
      intro tail e
      rw [hn] at e
      cases e
      revert hc
      decide
    rw [fields?_cons hskip (hbrace _) (field?_line hf _),
      ih fun g hg => hp g (List.mem_cons_of_mem f hg)]
    rfl

end Fields

section Declarations

variable {s : Schema} {timestamps : List String} {o : ObjectDef} {rest : List Char}

theorem isNameContinue_escape {name : String} (h : ∀ c ∈ name.toList, isNameContinue c = true) :
    ∀ c ∈ (Naming.escape name).toList, isNameContinue c = true := by
  unfold Naming.escape
  split
  · intro c hc
    rw [String.toList_append, List.mem_append] at hc
    rcases hc with hc | hc
    · exact h c hc
    · rw [List.mem_singleton.mp hc]
      decide
  · exact h

/-- The full type of an object of a schema. -/
def ofObject (s : Schema) (timestamps : List String) (o : ObjectDef) : FullType :=
  ⟨o.name, s.fullFields timestamps o.fields⟩

theorem literal_fields :
    Record.literal (o.fields.map fun f => (f.name, s.descriptor timestamps f.type)) =
      s.fullFields timestamps o.fields := by
  rw [Record.literal, Schema.fullFields, Record.ofPairs, List.foldl_map, List.foldl_map,
    List.foldl_filter]
  congr 1
  funext r f
  by_cases h : f.name = reservedKey <;> simp [h]

theorem written_fullTypeLines : written (s.fullTypeLines timestamps o) ++ rest =
    written (docComment "" o.description) ++ ("export const ".toList ++
      ((Naming.escape (o.name ++ "Full")).toList ++ (" = fullType(".toList ++
        ((Text.quote o.name).toList ++ (", \x7b".toList ++ '\n' ::
          (written (rows s timestamps o.fields) ++ '\x7d' :: (");".toList ++ '\n' :: rest))))))) := by
  simp [Schema.fullTypeLines, rows]

theorem declaration?_written (ho : IsName o.name) (hf : ∀ f ∈ o.fields, IsName f.name) :
    declaration? (written (s.fullTypeLines timestamps o) ++ rest) =
      some (ofObject s timestamps o, '\n' :: rest) := by
  have hb : ∀ c ∈ (Naming.escape (o.name ++ "Full")).toList, isNameContinue c = true := by
    refine isNameContinue_escape fun c hc => ?_
    rw [String.toList_append, List.mem_append] at hc
    rcases hc with hc | hc
    · exact ho.continues c hc
    · exact List.all_eq_true.mp (by rfl : "Full".toList.all isNameContinue = true) c hc
  have he : ∀ tail, EndsWord (" = fullType(".toList ++ tail) := fun _ => endsWord_cons (by decide)
  rw [declaration?, written_fullTypeLines, skip_docComment (by simp [Blank]),
    skip_eq_self fun c hc => by cases hc; decide]
  simp only [dropPrefix?_self, dropWhile_word hb (he _), Text.quoted?_quote, fields?_rows hf,
    literal_fields, Option.bind_eq_bind, Option.bind_some]
  rfl

/-- What stands in front of a declaration does not matter. -/
theorem declaration?_newline {cs : List Char} : declaration? ('\n' :: cs) = declaration? cs := by
  rw [declaration?, declaration?, skip]

theorem declarations_newline {cs : List Char} : declarations ('\n' :: cs) = declarations cs := by
  rw [declarations, declarations, declaration?_newline]

theorem declarations_cons {cs : List Char} {full : FullType}
    (h : declaration? cs = some (full, rest)) : declarations cs = full :: declarations rest := by
  rw [declarations]
  split
  · rename_i h'
    rw [h] at h'
    cases h'
    rfl
  · rename_i h'
    rw [h] at h'
    cases h'

theorem declarations_written {os : List ObjectDef}
    (hp : ∀ o ∈ os, IsName o.name ∧ ∀ f ∈ o.fields, IsName f.name) :
    declarations (written (os.flatMap fun o => s.fullTypeLines timestamps o ++ [""]) ++ rest) =
      os.map (ofObject s timestamps) ++ declarations rest := by
  induction os with
  | nil => rfl
  | cons o os ih =>
    obtain ⟨ho, hf⟩ := hp o List.mem_cons_self
    have hw : written ((o :: os).flatMap fun o => s.fullTypeLines timestamps o ++ [""]) ++ rest =
        written (s.fullTypeLines timestamps o) ++ '\n' ::
          (written (os.flatMap fun o => s.fullTypeLines timestamps o ++ [""]) ++ rest) := by
      simp
    rw [hw, declarations_cons (declaration?_written ho hf), declarations_newline,
      declarations_newline, ih fun p hm => hp p (List.mem_cons_of_mem o hm)]
    rfl

/-- A comment of one line is no declaration. -/
theorem declarations_stop : declarations ('/' :: '/' :: rest) = [] := by
  have hs : skip ('/' :: '/' :: rest) = '/' :: '/' :: rest := by
    rw [skip.eq_4] <;> (intro _ e; cases e)
  have hd : declaration? ('/' :: '/' :: rest) = none := by
    rw [declaration?, hs]
    rfl
  rw [declarations]
  split
  · rename_i h
    rw [hd] at h
    cases h
  · rfl

end Declarations

end FullType

namespace Schema

variable {s : Schema} {options : EmitOptions}

theorem toList_intercalate_newline {lines : List String} (h : lines ≠ []) :
    ("\n".intercalate lines ++ "\n").toList = written lines := by
  rw [String.toList_append, String.toList_intercalate]
  induction lines with
  | nil => exact absurd rfl h
  | cons line lines ih =>
    cases lines with
    | nil => simp [List.intercalate]
    | cons next lines =>
      have hi := ih (List.cons_ne_nil _ _)
      rw [written_cons, ← hi]
      simp [List.intercalate]

theorem toList_source : (s.emit options).source.toList = written (s.moduleLines options) := by
  refine toList_intercalate_newline ?_
  simp [moduleLines]

/-- The title above the full types of a module. -/
def fullTypesTitle : List Char := "// === Full types ===\n\n".toList

theorem sectionLines_slashes (title : String) (blocks : List (List String)) (lines : List String) :
    ∃ rest, written (sectionLines title blocks ++ "// === Operations ===" :: lines) =
      '/' :: '/' :: rest := by
  unfold sectionLines
  split
  · exact ⟨_, by rw [List.nil_append, written_cons]; rfl⟩
  · exact ⟨_, by
      rw [List.cons_append, List.cons_append, List.cons_append, written_cons, String.toList_append,
        String.toList_append]
      rfl⟩

/-- Behind their title stand the full types of all objects. -/
theorem source_fullTypes (h : s.objects ≠ []) : ∃ front rest,
    (s.emit options).source.toList = front ++ fullTypesTitle ++
      (written (s.objects.flatMap fun o => s.fullTypeLines options.timestamps o ++ [""]) ++
        '/' :: '/' :: rest) := by
  have hsection : written (sectionLines "Full types"
      (s.objects.map fun o => s.fullTypeLines options.timestamps o ++ [""])) = fullTypesTitle ++
        written (s.objects.flatMap fun o => s.fullTypeLines options.timestamps o ++ [""]) := by
    rw [sectionLines, if_neg (by simp [h]), written_append, List.flatMap_def]
    rfl
  obtain ⟨rest, hrest⟩ := sectionLines_slashes "Projections (all scalar and enum fields)"
    (s.projected.map fun p => s.projectionLines options.timestamps p.1 p.2 ++ [""])
    ("" :: (operationLines "queryOperations" s.queryFields ++ [""] ++
      operationLines "mutationOperations" s.mutationFields))
  refine ⟨written (["// Generated by graphql-lean-codegen. Do not edit.", ""] ++
    s.importLines options ++ sectionLines "Enums" (s.enums.map enumLines)), rest, ?_⟩
  rw [toList_source, ← hrest, List.append_assoc, ← List.append_assoc fullTypesTitle, ← hsection,
    ← written_append, ← written_append]
  simp only [moduleLines, List.append_assoc, List.cons_append, List.nil_append]

theorem find?_ofObject (os : List ObjectDef) (timestamps : List String) (name : String) :
    (os.map (FullType.ofObject s timestamps)).find? (·.typeName == name) =
      (os.find? (·.name == name)).map (FullType.ofObject s timestamps) :=
  List.find?_map ..

/-- An expression of a descriptor is read back as the descriptor, so that no other one has it. And
where the module of a text declares its full types, the declaration of an object is read back as
the full type that projections of the object are checked against. -/
theorem declared_fullType (text : String) (options : EmitOptions) (name : String) (o : ObjectDef)
    (ho : (Document.ofString text).schema.object? name = some o) :
    (∀ d : Descriptor, Descriptor.read? d.render.toList = some (d, [])) ∧
      Function.Injective Descriptor.render ∧
      let s := (Document.ofString text).schema
      ∃ front declared full,
        (s.emit options).source.toList = front ++ fullTypesTitle ++ declared ∧
          (FullType.declarations declared).find? (·.typeName == o.name) = some full ∧
          s.fullType? options.timestamps o.name = some full := by
  refine ⟨Descriptor.read?_render_self, Descriptor.render_injective, ?_⟩
  intro s
  have hm : o ∈ s.objects := List.mem_of_find?_eq_some ho
  have hn : o.name = name := by simpa using List.find?_some ho
  have hp : ∀ p ∈ s.objects, IsName p.name ∧ ∀ f ∈ p.fields, IsName f.name := fun p hp =>
    (Document.schema_objects_proper hp).imp_right fun h f hf => (h f hf).name
  obtain ⟨front, rest, hsource⟩ := @source_fullTypes s options (List.ne_nil_of_mem hm)
  refine ⟨front, _, FullType.ofObject s options.timestamps o, hsource, ?_, ?_⟩
  · rw [FullType.declarations_written hp, FullType.declarations_stop, List.append_nil,
      find?_ofObject, hn]
    exact congrArg (Option.map _) ho
  · rw [fullType?, hn, ho]
    rfl

/-- A cat with a field of the reserved name, a field that comes twice, and a description with the
end of a comment. -/
def tabby : ObjectDef :=
  ⟨"Cat", some "Ends */ here.",
    [⟨"age", none, .named "Int", []⟩, ⟨reservedKey, none, .named "Int", []⟩,
      ⟨"tags", none, .nonNull (.list (.nonNull (.named "ID"))), []⟩,
      ⟨"age", none, .named "DateTime", []⟩]⟩

def tabbyText : String :=
  "\"Ends */ here.\" type Cat \x7b age: Int __proto__: Int tags: [ID!]! age: DateTime \x7d"

theorem object?_tabby : (Document.ofString tabbyText).schema.object? "Cat" = some tabby := by cbv

/-- Its age is declared once, as the time that it is at last. -/
theorem declared_fullType_tabby :
    let s := (Document.ofString tabbyText).schema
    s.object? "Cat" = some tabby ∧ ∃ front declared full,
      (s.emit {}).source.toList = front ++ fullTypesTitle ++ declared ∧
        (FullType.declarations declared).find? (·.typeName == "Cat") = some full ∧
        s.fullType? ["DateTime"] "Cat" = some full ∧
        full.fields.keys = ["age", "tags"] := by
  obtain ⟨-, -, front, declared, full, hsource, hfind, hfull⟩ :=
    declared_fullType tabbyText {} "Cat" tabby object?_tabby
  refine ⟨object?_tabby, front, declared, full, hsource, hfind, hfull, ?_⟩
  rw [fullType?, show tabby.name = "Cat" from rfl, object?_tabby] at hfull
  cases hfull
  have htags : ∀ b, ¬ Precedes "tags" b := fun _ => not_precedes_of_isName (by decide)
  simp [fullFields, tabby, reservedKey, Record.ofPairs, Record.insert, Record.put, Record.empty,
    Record.keys, htags]

end Schema

end GraphClient
