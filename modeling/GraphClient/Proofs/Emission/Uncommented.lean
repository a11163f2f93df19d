import GraphClient.Proofs.Emission.FullTypes
import GraphClient.Proofs.Emission.Lines
import GraphClient.Proofs.Schema.Descriptions
import GraphClient.Proofs.Schema.WellFormed

/-!
# A generated module without its comments

`Comment.uncommented` leaves out of a text each comment that a line opens, up to the first mark
that ends it. What stays of a generated module is the module of the same schema without
descriptions (`Schema.uncommented_source`): no description ends its comment early, and no other
line opens one. So what descriptions say changes nothing else (`Schema.descriptions_inert`).
-/

namespace GraphClient

namespace Comment

/-- The comment that a line opens behind its spaces, from its second star on. -/
def opened? (cs : List Char) : Option (List Char) :=
  match cs.dropWhile (· == ' ') with
  | '/' :: '*' :: '*' :: body => some ('*' :: body)
  | _ => none

/-- The text behind a line break at its front. -/
def behindBreak : List Char → List Char
  | '\n' :: cs => cs
  | cs => cs

theorem length_behindBreak_le (cs : List Char) : (behindBreak cs).length ≤ cs.length := by
  fun_cases behindBreak cs with
  | case1 cs => exact Nat.le_succ _
  | case2 => exact Nat.le_refl _

theorem length_opened?_lt {cs body : List Char} (h : opened? cs = some body) :
    body.length < cs.length := by
  unfold opened? at h
  split at h
  · rename_i tail hd
    cases h
    have hle := (List.dropWhile_sublist (· == ' ') (l := cs)).length_le
    rw [hd] at hle
    simp only [List.length_cons] at hle ⊢
    omega
  · cases h

/-- A comment behind an indent: the mark that ends it comes last in it, and only there. -/
structure Delimited (indent cs : List Char) : Prop where
  opened : indent ++ ['/', '*', '*'] <+: cs
  closed : ['*', '/'] <:+ cs
  once : ∀ front back, cs = front ++ '*' :: '/' :: back → back = []

/-- The text without the comments that its lines open. -/
def uncommented : List Char → List Char
  | [] => []
  | c :: cs =>
    match _h : opened? (c :: cs) with
    | some body => uncommented (behindBreak (behind body))
    | none =>
      let line := (c :: cs).takeWhile (· != '\n')
      let rest := (c :: cs).dropWhile (· != '\n')
      line ++ rest.take 1 ++ uncommented (rest.drop 1)
termination_by cs => cs.length
decreasing_by
  · have ho := length_opened?_lt _h
    have hb := length_behind_le body
    have hl := length_behindBreak_le (behind body)
    omega
  · have hle := (List.dropWhile_sublist (· != '\n') (l := c :: cs)).length_le
    simp only [List.length_drop, List.length_cons] at hle ⊢
    omega

theorem opened?_plain {line : String} (h : Plain line) (rest : List Char) :
    opened? (line.toList ++ '\n' :: rest) = none := by
  have hd : (line.toList ++ '\n' :: rest).dropWhile (· == ' ') =
      line.toList.dropWhile (· == ' ') ++ '\n' :: rest := by
    rw [List.dropWhile_append]
    split
    · rename_i he
      rw [List.isEmpty_iff.mp he]
      rfl
    · rfl
  have hu := h.unopened
  rw [opened?, hd]
  split
  · rename_i body hb
    rcases hl : line.toList.dropWhile (· == ' ') with _ | ⟨a, _ | ⟨b, tail⟩⟩ <;> rw [hl] at hb hu
    · cases hb
    · cases hb
    · rw [List.cons_append, List.cons_append, List.cons.injEq, List.cons.injEq] at hb
      obtain ⟨rfl, rfl, -⟩ := hb
      exact absurd rfl (hu tail)
  · rfl

theorem uncommented_opened {cs body : List Char} (h : opened? cs = some body) :
    uncommented cs = uncommented (behindBreak (behind body)) := by
  cases cs with
  | nil => cases h
  | cons c cs =>
    rw [uncommented]
    split
    · rename_i h'
      rw [h] at h'
      cases h'
      rfl
    · rename_i h'
      rw [h] at h'
      cases h'

theorem uncommented_unopened {cs : List Char} (h : opened? cs = none) :
    uncommented cs = cs.takeWhile (· != '\n') ++ (cs.dropWhile (· != '\n')).take 1 ++
      uncommented ((cs.dropWhile (· != '\n')).drop 1) := by
  cases cs with
  | nil => rfl
  | cons c cs =>
    rw [uncommented]
    split
    · rename_i h'
      rw [h] at h'
      cases h'
    · rfl

/-- A line that opens no comment stays. -/
theorem uncommented_plain {line : String} (h : Plain line) (rest : List Char) :
    uncommented (line.toList ++ '\n' :: rest) = line.toList ++ '\n' :: uncommented rest := by
  have hne : ∀ c ∈ line.toList, (c != '\n') = true := fun c hc => by
    simpa using fun e : c = '\n' => h.oneLine (e ▸ hc)
  rw [uncommented_unopened (opened?_plain h rest), List.takeWhile_append_of_pos hne,
    List.dropWhile_append_of_pos hne]
  simp

/-- What is written for a description goes as a whole. -/
theorem uncommented_docComment {indent : String} (hi : Blank indent.toList) (d : Option String)
    (rest : List Char) :
    uncommented (written (docComment indent d) ++ rest) = uncommented rest := by
  match d with
  | none => rfl
  | some text =>
    by_cases ht : text = ""
    · rw [docComment, if_pos ht]
      rfl
    · obtain ⟨body, hb, hw⟩ := written_docComment hi ht
      have ho : opened? (indent.toList ++ '/' :: '*' :: (('*' :: body) ++ '*' :: '/' :: '\n' ::
          rest)) = some (('*' :: body) ++ '*' :: '/' :: '\n' :: rest) := by
        rw [opened?, List.dropWhile_append_of_pos fun c hc => by simp [hi c hc]]
        rfl
      have hcs : written (docComment indent (some text)) ++ rest =
          indent.toList ++ '/' :: '*' :: (('*' :: body) ++ '*' :: '/' :: '\n' :: rest) := by
        rw [hw]
        simp
      rw [hcs, uncommented_opened ho, behind_unended hb]
      rfl

/-- Without comments the first lines are the second ones, whatever follows. -/
def Uncovers (ls ms : List String) : Prop :=
  ∀ rest, uncommented (written ls ++ rest) = written ms ++ uncommented rest

namespace Uncovers

variable {ls ms ls' ms' : List String} {line : String}

theorem nil : Uncovers [] [] := fun _ => rfl

theorem append (h : Uncovers ls ms) (h' : Uncovers ls' ms') :
    Uncovers (ls ++ ls') (ms ++ ms') := by
  intro rest
  rw [written_append, written_append, List.append_assoc, List.append_assoc, h, h']

theorem plain (h : Plain line) : Uncovers [line] [line] := by
  intro rest
  simpa using uncommented_plain h rest

theorem cons (h : Plain line) (h' : Uncovers ls ms) : Uncovers (line :: ls) (line :: ms) :=
  (plain h).append h'

theorem of_plain (h : ∀ line ∈ ls, Plain line) : Uncovers ls ls := by
  induction ls with
  | nil => exact nil
  | cons line ls ih =>
    exact cons (h line List.mem_cons_self) (ih fun l hl => h l (List.mem_cons_of_mem line hl))

theorem flatMap {α : Type} {as : List α} {f g : α → List String}
    (h : ∀ a ∈ as, Uncovers (f a) (g a)) : Uncovers (as.flatMap f) (as.flatMap g) := by
  induction as with
  | nil => exact nil
  | cons a as ih =>
    rw [List.flatMap_cons, List.flatMap_cons]
    exact (h a List.mem_cons_self).append (ih fun b hb => h b (List.mem_cons_of_mem a hb))

theorem comment {indent : String} (hi : Blank indent.toList) (d : Option String) :
    Uncovers (docComment indent d) [] := uncommented_docComment hi d

end Uncovers

end Comment

namespace Schema

open Comment

/-! ## Modules of schemas that differ in descriptions -/

section Congruence

variable {s t : Schema} (h : ∀ name, s.kind? name = t.kind? name)

include h

theorem isComposite_congr : s.isComposite = t.isComposite := by
  funext name
  rw [isComposite, isComposite, h]

theorem isLeafField_congr : s.isLeafField = t.isLeafField := by
  funext f
  rw [isLeafField, isLeafField, isComposite_congr h]

theorem presentDescriptor_congr (timestamps : List String) (type : TypeRef) :
    s.presentDescriptor timestamps type = t.presentDescriptor timestamps type := by
  induction type with
  | named name => simp only [presentDescriptor, isComposite_congr h]
  | list element ih => simp only [presentDescriptor, ih]
  | nonNull inner ih => simp only [presentDescriptor, ih]

theorem descriptor_congr : s.descriptor = t.descriptor := by
  funext timestamps type
  rw [descriptor, descriptor, presentDescriptor_congr h]

theorem selectable_congr : s.selectable = t.selectable := by
  funext o
  rw [selectable, selectable, isLeafField_congr h]

theorem leftOut_congr : s.leftOut = t.leftOut := by
  funext o
  rw [leftOut, leftOut, isLeafField_congr h]

theorem fullTypeLines_congr : s.fullTypeLines = t.fullTypeLines := by
  funext timestamps o
  simp only [fullTypeLines, fullFieldLine, descriptor_congr h]

theorem projectionLines_congr : s.projectionLines = t.projectionLines := by
  have hfield : s.projectionFieldLine = t.projectionFieldLine := by
    funext timestamps f
    rw [projectionFieldLine, projectionFieldLine, descriptor_congr h]
  funext timestamps o fs
  rw [projectionLines, projectionLines, hfield]

end Congruence

section MapDescriptions

variable (f : String → Option String) (s : Schema)

theorem isLeafField_mapDescriptions (d : FieldDef) :
    (s.mapDescriptions f).isLeafField (d.mapDescriptions f) = s.isLeafField d := by
  rw [isLeafField, FieldDef.mapDescriptions, List.any_map]
  rfl

theorem selectable_mapDescriptions (o : ObjectDef) :
    (s.mapDescriptions f).selectable (o.mapDescriptions f) =
      (s.selectable o).map (·.mapDescriptions f) := by
  simp only [selectable, ObjectDef.mapDescriptions, List.filter_map, Function.comp_def,
    isLeafField_mapDescriptions]
  rfl

theorem leftOut_mapDescriptions (o : ObjectDef) :
    (s.mapDescriptions f).leftOut (o.mapDescriptions f) = s.leftOut o := by
  simp only [leftOut, ObjectDef.mapDescriptions, List.filter_map, Function.comp_def,
    isLeafField_mapDescriptions, List.map_map]
  rfl

theorem projected_mapDescriptions : (s.mapDescriptions f).projected =
    s.projected.map fun p => (p.1.mapDescriptions f, p.2.map (·.mapDescriptions f)) := by
  have ho : (s.mapDescriptions f).objects = s.objects.map (·.mapDescriptions f) := rfl
  simp only [projected, ho, List.map_map, List.filter_map, Function.comp_def,
    selectable_mapDescriptions, List.isEmpty_map]

theorem helpers_mapDescriptions : (s.mapDescriptions f).helpers = s.helpers := by
  simp only [helpers, projected_mapDescriptions, List.isEmpty_map]
  rw [mapDescriptions, List.isEmpty_map]

theorem importLines_mapDescriptions (options : EmitOptions) :
    (s.mapDescriptions f).importLines options = s.importLines options := by
  simp only [importLines, helpers_mapDescriptions]

theorem operationLines_mapDescriptions (binding : String) (fs : List FieldDef) :
    operationLines binding (fs.map (·.mapDescriptions f)) = operationLines binding fs := by
  have hline : ∀ d : FieldDef, operationLine (d.mapDescriptions f) = operationLine d := by
    intro d
    simp only [operationLine, FieldDef.mapDescriptions, List.map_map]
    rfl
  simp only [operationLines, List.isEmpty_map, List.map_map, Function.comp_def, hline]

theorem descriptor_mapDescriptions : (s.mapDescriptions f).descriptor = s.descriptor :=
  descriptor_congr fun _ => rfl

theorem fullFieldLine_mapDescriptions (timestamps : List String) (d : FieldDef) :
    (s.mapDescriptions f).fullFieldLine timestamps (d.mapDescriptions f) =
      s.fullFieldLine timestamps d := by
  rw [fullFieldLine, descriptor_mapDescriptions]
  rfl

theorem projectionLines_mapDescriptions (timestamps : List String) (o : ObjectDef)
    (fs : List FieldDef) : (s.mapDescriptions f).projectionLines timestamps (o.mapDescriptions f)
      (fs.map (·.mapDescriptions f)) = s.projectionLines timestamps o fs := by
  have hline : ∀ d : FieldDef, (s.mapDescriptions f).projectionFieldLine timestamps
      (d.mapDescriptions f) = s.projectionFieldLine timestamps d := fun d => by
    rw [projectionFieldLine, descriptor_mapDescriptions]
    rfl
  simp only [projectionLines, List.map_map, Function.comp_def, hline]
  rfl

end MapDescriptions

section Uncovers

variable {s : Schema} {options : EmitOptions}

theorem uncovers_sectionLines {α : Type} {title : String} (ht : OneLine title) {as : List α}
    {f g : α → List String} (h : ∀ a ∈ as, Uncovers (f a) (g a)) :
    Uncovers (sectionLines title (as.map f)) (sectionLines title (as.map g)) := by
  simp only [sectionLines, List.isEmpty_map]
  split
  · exact .nil
  · rw [← List.flatMap_def, ← List.flatMap_def]
    exact .cons (plain_title ht) (.cons plain_empty (.flatMap h))

theorem docComment_noText (indent : String) (d : Option String) :
    docComment indent (d.bind noText) = [] := by
  cases d <;> rfl

theorem uncovers_enumLines {e : EnumDef} (h : IsName e.name) :
    Uncovers (enumLines e) (enumLines (e.mapDescriptions noText)) := by
  have hd : enumLines (e.mapDescriptions noText) = enumLines { e with description := none } := by
    simp only [enumLines, EnumDef.mapDescriptions, docComment_noText, List.map_map]
    rfl
  rw [hd]
  exact Uncovers.append (.comment blank_empty e.description) (.of_plain (plain_enumLines h))

theorem uncovers_fullTypeLines {timestamps : List String} {o : ObjectDef} (ho : IsName o.name)
    (hf : ∀ f ∈ o.fields, IsName f.name) :
    Uncovers (s.fullTypeLines timestamps o)
      (s.undescribed.fullTypeLines timestamps (o.mapDescriptions noText)) := by
  have hfields : Uncovers
      (o.fields.flatMap fun f => docComment "  " f.description ++ [s.fullFieldLine timestamps f])
      (o.fields.flatMap fun f => [s.fullFieldLine timestamps f]) :=
    .flatMap fun f hm => (Uncovers.comment blank_indent f.description).append
      (.plain (plain_fullFieldLine (hf f hm)))
  have hw : s.undescribed.fullTypeLines timestamps (o.mapDescriptions noText) =
      [] ++ ["export const " ++ Naming.escape (o.name ++ "Full") ++ " = fullType(" ++
        Text.quote o.name ++ ", \x7b"] ++ (o.fields.flatMap fun f =>
          [s.fullFieldLine timestamps f]) ++ ["\x7d);"] := by
    have hline : ∀ f : FieldDef, docComment "  " (f.mapDescriptions noText).description ++
        [s.undescribed.fullFieldLine timestamps (f.mapDescriptions noText)] =
          [s.fullFieldLine timestamps f] := fun f => by
      rw [undescribed, fullFieldLine_mapDescriptions, FieldDef.mapDescriptions, docComment_noText]
      rfl
    simp only [fullTypeLines, ObjectDef.mapDescriptions, docComment_noText, List.flatMap_map,
      hline]
  rw [hw]
  have hopen := (Uncovers.comment blank_empty o.description).append
    (.plain (plain_fullTypeLine ho))
  exact (hopen.append hfields).append (.plain (Starts.plain (by decide) (by decide)))

theorem uncovers_moduleLines (he : ∀ e ∈ s.enums, IsName e.name)
    (ho : ∀ o ∈ s.objects, IsName o.name ∧ ∀ f ∈ o.fields, IsName f.name) :
    Uncovers (s.moduleLines options) (s.undescribed.moduleLines options) := by
  have henums : sectionLines "Enums" (s.undescribed.enums.map enumLines) =
      sectionLines "Enums" (s.enums.map fun e => enumLines (e.mapDescriptions noText)) := by
    rw [undescribed, mapDescriptions, List.map_map]
    rfl
  have hfull : sectionLines "Full types" (s.undescribed.objects.map fun o =>
        s.undescribed.fullTypeLines options.timestamps o ++ [""]) =
      sectionLines "Full types" (s.objects.map fun o =>
        s.undescribed.fullTypeLines options.timestamps (o.mapDescriptions noText) ++ [""]) := by
    rw [show s.undescribed.objects = s.objects.map (·.mapDescriptions noText) from rfl,
      List.map_map]
    rfl
  have hprojected : s.undescribed.projected.map (fun p =>
        s.undescribed.projectionLines options.timestamps p.1 p.2 ++ [""]) =
      s.projected.map fun p => s.projectionLines options.timestamps p.1 p.2 ++ [""] := by
    simp only [undescribed, projected_mapDescriptions, List.map_map, Function.comp_def,
      projectionLines_mapDescriptions]
  have himport : s.undescribed.importLines options = s.importLines options :=
    importLines_mapDescriptions noText s options
  have hquery : operationLines "queryOperations" s.undescribed.queryFields =
      operationLines "queryOperations" s.queryFields :=
    operationLines_mapDescriptions noText _ _
  have hmutation : operationLines "mutationOperations" s.undescribed.mutationFields =
      operationLines "mutationOperations" s.mutationFields :=
    operationLines_mapDescriptions noText _ _
  have hselected := projected_names ho
  have hblank : Uncovers [""] [""] := .plain plain_empty
  simp only [moduleLines, himport, henums, hfull, hprojected, hquery, hmutation]
  -- part by part, in the order of the module
  refine .append (.append (.append (.append (.append (.append (.append (.append ?_ ?_) ?_) ?_) ?_)
    ?_) ?_) hblank) ?_
  · exact .cons ⟨by decide, by simp⟩ hblank
  · exact .of_plain (plain_importLines options)
  · exact uncovers_sectionLines (by decide) fun e hm => uncovers_enumLines (he e hm)
  · exact uncovers_sectionLines (by decide) fun o hm =>
      (uncovers_fullTypeLines (ho o hm).1 (ho o hm).2).append hblank
  · exact uncovers_sectionLines (by decide) fun p hm => .append
      (.of_plain (plain_projectionLines (hselected p hm).1 (hselected p hm).2)) hblank
  · exact .cons (plain_title (show OneLine "Operations" by decide)) hblank
  · exact .of_plain (plain_operationLines (by decide) _)
  · exact .of_plain (plain_operationLines (by decide) _)

end Uncovers

/-- What stays of the module of a well-formed schema is its module without descriptions. -/
theorem WellFormed.uncommented_source {s : Schema} (h : s.WellFormed) (options : EmitOptions) :
    uncommented (s.emit options).source.toList = (s.undescribed.emit options).source.toList := by
  have hu : Uncovers (s.moduleLines options) (s.undescribed.moduleLines options) :=
    uncovers_moduleLines h.enum_name h.object_names
  have hwritten := hu []
  rw [List.append_nil, uncommented, List.append_nil] at hwritten
  rw [toList_source, toList_source, hwritten]

/-- Two schemas that differ in descriptions alone. -/
structure Alike (s t : Schema) : Prop where
  scalars : s.undescribed.scalars = t.undescribed.scalars
  enums : s.undescribed.enums = t.undescribed.enums
  objects : s.undescribed.objects = t.undescribed.objects
  inputs : s.undescribed.inputs = t.undescribed.inputs
  queryFields : s.undescribed.queryFields = t.undescribed.queryFields
  mutationFields : s.undescribed.mutationFields = t.undescribed.mutationFields
  kind? : ∀ name, s.kind? name = t.kind? name

/-- Without descriptions such schemas have the same module and leave out the same fields. -/
theorem Alike.emit_undescribed {s t : Schema} (h : s.Alike t) (options : EmitOptions) :
    s.undescribed.emit options = t.undescribed.emit options := by
  obtain ⟨-, henums, hobjects, -, hquery, hmutation, hkind⟩ := h
  have hkind : ∀ name, s.undescribed.kind? name = t.undescribed.kind? name := hkind
  generalize s.undescribed = s at *
  generalize t.undescribed = t at *
  have hprojected : s.projected = t.projected := by
    rw [projected, projected, hobjects, selectable_congr hkind]
  have himport : s.importLines options = t.importLines options := by
    rw [importLines, importLines, helpers, helpers, hobjects, hprojected]
  simp only [emit, moduleLines, himport, henums, hobjects, fullTypeLines_congr hkind, hprojected,
    projectionLines_congr hkind, hquery, hmutation, leftOut_congr hkind]

theorem leftOut_undescribed (s : Schema) (options : EmitOptions) :
    (s.undescribed.emit options).leftOut = (s.emit options).leftOut := by
  rw [emit, emit, undescribed]
  show (s.objects.map _).flatMap _ = _
  simp only [List.flatMap_map, leftOut_mapDescriptions]

theorem toList_joined {lines : List String} (h : lines ≠ []) :
    ("\n".intercalate lines).toList ++ ['\n'] = written lines := by
  rw [← toList_intercalate_newline h, String.toList_append]
  rfl

/-- What is written for a description is one comment. -/
theorem delimited_docComment {indent text : String} (hi : Blank indent.toList) (ht : text ≠ "") :
    Delimited indent.toList ("\n".intercalate (docComment indent (some text))).toList := by
  obtain ⟨body, hb, hw⟩ := written_docComment hi ht
  have hlines : docComment indent (some text) ≠ [] := by
    intro he
    rw [he] at hw
    simp at hw
  have hcs : ("\n".intercalate (docComment indent (some text))).toList =
      indent.toList ++ '/' :: '*' :: ('*' :: body ++ ['*']) ++ ['/'] := by
    refine List.append_cancel_right (?_ : _ ++ ['\n'] = _)
    rw [toList_joined hlines, hw]
    simp
  rw [hcs]
  refine ⟨⟨body ++ ['*', '/'], by simp⟩, ⟨indent.toList ++ '/' :: '*' :: '*' :: body, by simp⟩, ?_⟩
  have hfront : Unended (indent.toList ++ '/' :: '*' :: ('*' :: body ++ ['*'])) := by
    refine List.isChain_append.mpr ⟨Unended.of_blank hi, ?_, ?_⟩
    · exact .cons_cons (by decide) (.cons_cons (by decide) hb)
    · rintro c hc - - ⟨rfl, -⟩
      exact absurd (hi _ (List.mem_of_mem_getLast? hc)) (by decide)
  intro front back he
  rcases List.eq_nil_or_concat back with rfl | ⟨back, c, rfl⟩
  · rfl
  · have hsplit : indent.toList ++ '/' :: '*' :: ('*' :: body ++ ['*']) =
        front ++ ['*', '/'] ++ back := by
      have hlast : indent.toList ++ '/' :: '*' :: ('*' :: body ++ ['*']) ++ ['/'] =
          front ++ ['*', '/'] ++ back ++ [c] := by
        rw [he]
        simp
      exact (List.append_inj' hlast rfl).1
    rw [hsplit] at hfront
    have hmark : Unended ['*', '/'] := hfront.infix ⟨front, back, rfl⟩
    exact absurd ⟨rfl, rfl⟩ (List.isChain_pair.mp hmark)

/-- Definitions that differ in descriptions alone make up such schemas. -/
theorem Alike.of_definitions {ds es : List Definition}
    (h : ds.map (·.undescribed) = es.map (·.undescribed)) :
    (ofDefinitions ds).Alike (ofDefinitions es) := by
  have hu : (ofDefinitions ds).undescribed = (ofDefinitions es).undescribed := by
    rw [undescribed, undescribed, ← ofDefinitions_mapDescriptions,
      ← ofDefinitions_mapDescriptions]
    exact congrArg ofDefinitions h
  have hkinds : (ofDefinitions ds).undescribed.kinds = (ofDefinitions es).undescribed.kinds := by
    rw [hu]
  constructor
  case kind? => exact fun name => congrArg (·.get? name) hkinds
  all_goals rw [hu]

/-- What is written for a description is one comment, which only its last two characters end; an
empty text is no description. So the modules of two texts whose schemas differ in descriptions alone
are the same without their comments, and the same fields are left out of them. -/
theorem descriptions_inert :
    (∀ indent text : String, Blank indent.toList →
      if text = "" then docComment indent (some text) = []
      else Delimited indent.toList ("\n".intercalate (docComment indent (some text))).toList) ∧
    ∀ (a b : String) (options : EmitOptions),
      (Document.ofString a).schema.Alike (Document.ofString b).schema →
      let s := (Document.ofString a).schema
      let t := (Document.ofString b).schema
      uncommented (s.emit options).source.toList = (s.undescribed.emit options).source.toList ∧
        uncommented (s.emit options).source.toList = uncommented (t.emit options).source.toList ∧
        (s.emit options).leftOut = (t.emit options).leftOut := by
  refine ⟨fun indent text hi => ?_, fun a b options h => ?_⟩
  · split
    · rw [docComment, if_pos ‹_›]
    · exact delimited_docComment hi ‹_›
  · intro s t
    have hs := (Document.schema_wellFormed a).uncommented_source options
    have ht := (Document.schema_wellFormed b).uncommented_source options
    refine ⟨hs, ?_, ?_⟩
    · rw [hs, ht, h.emit_undescribed]
    · rw [← s.leftOut_undescribed, ← t.leftOut_undescribed, h.emit_undescribed]

/-- A text whose description tries to end its comment, and the text without it. -/
def sealText : String := "\"*/ evil(); /*\" type Cat \x7b age: Int \x7d"

def bareText : String := "type Cat \x7b age: Int \x7d"

theorem definitions_sealText : (Document.ofString sealText).definitions.map (·.undescribed) =
    (Document.ofString bareText).definitions.map (·.undescribed) := by cbv

/-- The description stays in its comment. -/
theorem descriptions_inert_seal :
    Delimited [] ("\n".intercalate (docComment "" (some "*/ evil(); /*"))).toList ∧
      (Document.ofString sealText).schema.Alike (Document.ofString bareText).schema ∧
      uncommented ((Document.ofString sealText).schema.emit {}).source.toList =
        uncommented ((Document.ofString bareText).schema.emit {}).source.toList := by
  obtain ⟨hcomment, hmodule⟩ := descriptions_inert
  have halike : (Document.ofString sealText).schema.Alike (Document.ofString bareText).schema :=
    .of_definitions definitions_sealText
  refine ⟨?_, halike, (hmodule sealText bareText {} halike).2.1⟩
  have hseal := hcomment "" "*/ evil(); /*" nofun
  rwa [if_neg (by decide)] at hseal

end Schema

end GraphClient
