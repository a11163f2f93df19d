import GraphClient.Proofs.Emission.FullTypes
import GraphClient.Proofs.Emission.Lines
import GraphClient.Proofs.Naming
import GraphClient.Proofs.Schema.WellFormed

/-!
# The names that a generated module binds

`Emission.bindings` reads the names that a module binds to values off its lines: those that it
imports and those that it exports. A generated module binds its helpers, a name for each enum, one
or two for each object, and two tables (`Schema.WellFormed.bindings_emit`). Names are only kept off
reserved words, so they may meet; `Schema.BindsApart` says where they do not
(`Schema.bindings_nodup_iff`).
-/

namespace GraphClient

namespace Text

variable {c : Char} {cs rest : List Char}

theorem parts_cons_self : parts c (c :: cs) = [] :: parts c cs := by
  simp [parts, split]

theorem parts_append (h : c ∉ cs) : parts c (cs ++ c :: rest) = cs :: parts c rest := by
  induction cs with
  | nil => exact parts_cons_self
  | cons d cs ih =>
    rw [List.mem_cons, not_or] at h
    obtain ⟨hhead, htail⟩ := List.cons.inj (ih h.2)
    simp only [List.cons_append, parts, split, if_neg (Ne.symm h.1), hhead, htail]

end Text

/-- Lines without line breaks are the parts of what is written, with nothing behind them. -/
theorem parts_written {lines : List String} (h : ∀ line ∈ lines, OneLine line) :
    Text.parts '\n' (written lines) = lines.map String.toList ++ [[]] := by
  induction lines with
  | nil => rfl
  | cons line lines ih =>
    rw [written_cons, Text.parts_append (h line List.mem_cons_self),
      ih fun l hl => h l (List.mem_cons_of_mem line hl)]
    rfl

namespace Emission

/-- The names between the braces of an import. -/
def imported (cs : List Char) : List String :=
  (Text.parts ',' (cs.takeWhile (· != '\x7d'))).map fun w =>
    String.ofList (w.filter isNameContinue)

/-- The names that a line binds to values. -/
def bound (line : List Char) : List String :=
  match line.dropPrefix? "import \x7b".toList with
  | some names => imported names
  | none =>
    match line.dropPrefix? "export const ".toList with
    | some rest => [String.ofList (rest.takeWhile isNameContinue)]
    | none => []

/-- The names that a module binds to values, line by line. -/
def bindings (e : Emission) : List String := (Text.parts '\n' e.source.toList).flatMap bound

theorem bound_export {name rest : List Char} (hn : ∀ c ∈ name, isNameContinue c = true)
    (hr : EndsWord rest) :
    bound ("export const ".toList ++ (name ++ rest)) = [String.ofList name] := by
  have hi : ("export const ".toList ++ (name ++ rest)).dropPrefix? "import \x7b".toList = none :=
    rfl
  simp only [bound, hi, dropPrefix?_self, takeWhile_word hn hr]

theorem bound_import {names rest : List Char} (h : '\x7d' ∉ names) :
    bound ("import \x7b".toList ++ (names ++ '\x7d' :: rest)) =
      (Text.parts ',' names).map fun w => String.ofList (w.filter isNameContinue) := by
  have ht : (names ++ '\x7d' :: rest).takeWhile (· != '\x7d') = names := by
    rw [List.takeWhile_append_of_pos fun c hc => by simpa using fun e : c = '\x7d' => h (e ▸ hc)]
    simp
  simp only [bound, dropPrefix?_self, imported, ht]

theorem bound_of_head {line : List Char} (h : ∀ c ∈ line.head?, c ≠ 'i' ∧ c ≠ 'e') :
    bound line = [] := by
  have hnone : ∀ {c : Char} {front : List Char}, (c = 'i' ∨ c = 'e') →
      line.dropPrefix? (c :: front) = none := by
    intro c front hc
    cases line with
    | nil => rfl
    | cons d line =>
      obtain ⟨hi, he⟩ := h d rfl
      have hne : (d == c) = false := by
        rcases hc with rfl | rfl
        · exact beq_eq_false_iff_ne.mpr hi
        · exact beq_eq_false_iff_ne.mpr he
      simp only [List.dropPrefix?, hne, Bool.false_eq_true, if_false]
  have himport : line.dropPrefix? "import \x7b".toList = none := hnone (.inl rfl)
  have hexport : line.dropPrefix? "export const ".toList = none := hnone (.inr rfl)
  simp only [bound, himport, hexport]

/-- A line that binds no name. -/
structure Silent (line : String) : Prop where
  oneLine : OneLine line
  unbound : bound line.toList = []

/-- Lines without line breaks, and the names that they bind. -/
structure Binds (lines : List String) (names : List String) : Prop where
  oneLine : ∀ line ∈ lines, OneLine line
  bound : (lines.flatMap fun line => bound line.toList) = names

namespace Binds

variable {ls ms ns os : List String} {line : String}

theorem nil : Binds [] [] := ⟨nofun, rfl⟩

theorem append (h : Binds ls ns) (h' : Binds ms os) : Binds (ls ++ ms) (ns ++ os) where
  oneLine := List.forall_mem_append.mpr ⟨h.oneLine, h'.oneLine⟩
  bound := by rw [List.flatMap_append, h.bound, h'.bound]

theorem flatMap {α : Type} {as : List α} {f g : α → List String}
    (h : ∀ a ∈ as, Binds (f a) (g a)) : Binds (as.flatMap f) (as.flatMap g) := by
  induction as with
  | nil => exact nil
  | cons a as ih =>
    rw [List.flatMap_cons, List.flatMap_cons]
    exact (h a List.mem_cons_self).append (ih fun b hb => h b (List.mem_cons_of_mem a hb))

theorem of_silent (h : ∀ line ∈ ls, Silent line) : Binds ls [] where
  oneLine line hl := (h line hl).oneLine
  bound := List.flatMap_eq_nil_iff.mpr fun line hl => (h line hl).unbound

theorem exports {name rest : List Char} (h : OneLine line)
    (hl : line.toList = "export const ".toList ++ (name ++ rest))
    (hn : ∀ c ∈ name, isNameContinue c = true) (hr : EndsWord rest) :
    Binds [line] [String.ofList name] :=
  ⟨List.forall_mem_singleton.mpr h, by simp only [List.flatMap_singleton, hl, bound_export hn hr]⟩

theorem bindings_eq {e : Emission} (hs : e.source.toList = written ls) (h : Binds ls ns) :
    e.bindings = ns := by
  rw [bindings, hs, parts_written h.oneLine, List.flatMap_append, List.flatMap_map, h.bound]
  exact List.append_nil ns

end Binds

end Emission

namespace Schema

open Comment Emission

variable {s : Schema} {options : EmitOptions}

/-- A line that begins as a comment does. -/
theorem silent_of_blank {line : String} {blank : List Char} (c : Char) (rest : List Char)
    (hb : Blank blank) (hc : c ∈ [' ', '/']) (hr : '\n' ∉ rest)
    (hl : line.toList = blank ++ c :: rest) : Silent line := by
  have hc : '\n' ≠ c ∧ c ≠ 'i' ∧ c ≠ 'e' := by
    rcases List.mem_pair.mp hc with rfl | rfl <;> decide
  constructor
  · rw [OneLine, hl, List.mem_append, List.mem_cons, not_or, not_or]
    exact ⟨fun hm => absurd (hb _ hm) (by decide), hc.1, hr⟩
  · rw [hl]
    refine bound_of_head fun d hd => ?_
    cases blank with
    | nil =>
      cases hd
      exact hc.2
    | cons b blank =>
      cases hd
      rw [hb d List.mem_cons_self]
      decide

theorem silent_docComment {indent : String} (hi : Blank indent.toList) (d : Option String) :
    ∀ line ∈ docComment indent d, Silent line := by
  cases d with
  | none => exact List.forall_mem_nil _
  | some text =>
    obtain ⟨hfirst, hlater⟩ := Text.not_mem_split '\n' (Comment.sealed text.toList)
    have hline : ∀ line ∈ Text.parts '\n' (Comment.sealed text.toList), '\n' ∉ line :=
      List.forall_mem_cons.mpr ⟨hfirst, hlater⟩
    rw [docComment]
    split
    · exact List.forall_mem_nil _
    split
    · rename_i line hp
      rw [hp] at hline
      have hl := hline line List.mem_cons_self
      exact List.forall_mem_singleton.mpr (silent_of_blank '/'
        ('*' :: '*' :: ' ' :: (line ++ [' ', '*', '/'])) hi (by simp) (by simp [hl]) (by simp))
    · generalize Text.parts '\n' (Comment.sealed text.toList) = lines at hline
      refine List.forall_mem_append.mpr ⟨List.forall_mem_append.mpr ⟨?_, ?_⟩, ?_⟩
      · exact List.forall_mem_singleton.mpr
          (silent_of_blank '/' ['*', '*'] hi (by simp) (by simp) (by simp))
      · refine List.forall_mem_map.mpr fun line hm => ?_
        have hl := hline line hm
        unfold Comment.inner
        split
        · exact silent_of_blank ' ' ['*'] hi (by simp) (by simp) (by simp)
        · exact silent_of_blank ' ' ('*' :: ' ' :: line) hi (by simp) (by simp [hl]) (by simp)
      · exact List.forall_mem_singleton.mpr
          (silent_of_blank ' ' ['*', '/'] hi (by simp) (by simp) (by simp))

/-- A comment binds nothing. -/
theorem binds_docComment {indent : String} (hi : Blank indent.toList) (d : Option String) :
    Binds (docComment indent d) [] := .of_silent (silent_docComment hi d)

theorem binds_importLines : Binds (s.importLines options) s.helpers := by
  refine ⟨fun line hl => (plain_importLines options line hl).oneLine, ?_⟩
  have hline : ∀ (names : List String) (shown : String), ", ".intercalate names = shown →
      '\x7d' ∉ shown.toList →
      (Text.parts ',' (' ' :: (shown.toList ++ [' ']))).map (fun w =>
        String.ofList (w.filter isNameContinue)) = names →
      bound ("import \x7b " ++ ", ".intercalate names ++ " \x7d from " ++
        Text.quote options.runtimeModule ++ ";").toList = names := by
    intro names shown hshown hbrace hnames
    have hl : ("import \x7b " ++ shown ++ " \x7d from " ++ Text.quote options.runtimeModule ++
        ";").toList = "import \x7b".toList ++ (' ' :: (shown.toList ++ [' ']) ++ '\x7d' ::
          (" from ".toList ++ ((Text.quote options.runtimeModule).toList ++ [';']))) := by
      simp
    rw [hshown, hl, bound_import (by simp [hbrace]), hnames]
  unfold importLines helpers
  split
  · rfl
  · split
    · have h := hline ["fullType", "t"] "fullType, t" rfl (by decide)
        (by decide)
      rw [if_neg (by decide), List.flatMap_cons, h]
      rfl
    · have h := hline ["fullType", "plain", "projection", "t"]
        "fullType, plain, projection, t" rfl (by decide) (by decide)
      rw [if_neg (by decide), List.flatMap_cons, h]
      rfl

theorem silent_empty : Silent "" := ⟨by decide, rfl⟩

/-- The line that exports a name, whatever follows the name. -/
theorem binds_export {line name : String} (rest : List Char) (h : OneLine line)
    (hl : line.toList = "export const ".toList ++ (name.toList ++ ' ' :: rest))
    (hn : ∀ c ∈ name.toList, isNameContinue c = true) : Binds [line] [name] := by
  have hb := Binds.exports h hl hn (endsWord_cons (by decide))
  rwa [String.ofList_toList] at hb

theorem isNameContinue_append {a b : String} (ha : ∀ c ∈ a.toList, isNameContinue c = true)
    (hb : ∀ c ∈ b.toList, isNameContinue c = true) :
    ∀ c ∈ (a ++ b).toList, isNameContinue c = true := by
  rw [String.toList_append]
  exact List.forall_mem_append.mpr ⟨ha, hb⟩

theorem binds_enumLines {e : EnumDef} (h : IsName e.name) :
    Binds (enumLines e) [Naming.escape e.name ++ "Values"] := by
  obtain ⟨hvalues, hrest⟩ := List.forall_mem_cons.mp (plain_enumLines h)
  obtain ⟨htype, -⟩ := List.forall_mem_cons.mp hrest
  have hname : ∀ c ∈ (Naming.escape e.name ++ "Values").toList, isNameContinue c = true :=
    isNameContinue_append (FullType.isNameContinue_escape h.continues) (List.all_eq_true.mp rfl)
  have hconst := binds_export ("= [".toList ++
    (", ".intercalate (e.values.map fun v => Text.quote v.name)).toList ++ "] as const;".toList)
    hvalues.oneLine (by simp) hname
  have hsilent : Silent ("export type " ++ Naming.escape e.name ++ " = (typeof " ++
      Naming.escape e.name ++ "Values)[number];") := by
    refine ⟨htype.oneLine, ?_⟩
    simp only [String.toList_append, List.append_assoc]
    rfl
  have htail : Binds ["export type " ++ Naming.escape e.name ++ " = (typeof " ++
      Naming.escape e.name ++ "Values)[number];", ""] [] :=
    .of_silent (List.forall_mem_cons.mpr ⟨hsilent, List.forall_mem_singleton.mpr silent_empty⟩)
  exact (binds_docComment blank_empty e.description).append
    (hconst.append htail)

theorem binds_fullTypeLines {timestamps : List String} {o : ObjectDef} (ho : IsName o.name)
    (hf : ∀ f ∈ o.fields, IsName f.name) :
    Binds (s.fullTypeLines timestamps o) [Naming.escape (o.name ++ "Full")] := by
  have hname : ∀ c ∈ (Naming.escape (o.name ++ "Full")).toList, isNameContinue c = true :=
    FullType.isNameContinue_escape (isNameContinue_append ho.continues
      (List.all_eq_true.mp rfl))
  have hopen := binds_export ("= fullType(".toList ++ (Text.quote o.name).toList ++ ", \x7b".toList)
    (plain_fullTypeLine ho).oneLine (by simp) hname
  have hfields : ∀ line ∈ o.fields.flatMap fun f =>
      docComment "  " f.description ++ [s.fullFieldLine timestamps f], Silent line := by
    refine List.forall_mem_flatMap.mpr fun f hm => List.forall_mem_append.mpr
      ⟨silent_docComment blank_indent _, List.forall_mem_singleton.mpr ?_⟩
    exact ⟨(plain_fullFieldLine (hf f hm)).oneLine, bound_of_head (by simp [fullFieldLine])⟩
  exact (((binds_docComment blank_empty o.description).append hopen).append
    (.of_silent hfields)).append (.of_silent (List.forall_mem_singleton.mpr
      ⟨by decide, rfl⟩))

theorem binds_projectionLines {timestamps : List String} {o : ObjectDef} {fs : List FieldDef}
    (ho : IsName o.name) (hf : ∀ f ∈ fs, IsName f.name) :
    Binds (s.projectionLines timestamps o fs) [Naming.escape o.name] := by
  have hplain : ∀ line ∈ s.projectionLines timestamps o fs, Plain line :=
    plain_projectionLines ho hf
  have hconst := binds_export "= projection(\x7b".toList (hplain _ List.mem_cons_self).oneLine
    (by simp) (FullType.isNameContinue_escape ho.continues)
  have hsilent : ∀ line ∈ ["  name: " ++ Text.quote o.name ++ ",", "  fields: \x7b"] ++
      fs.map (s.projectionFieldLine timestamps) ++ ["  \x7d,", "\x7d);"], Silent line := by
    intro line hl
    refine ⟨(hplain line (List.mem_cons_of_mem _ hl)).oneLine, bound_of_head ?_⟩
    simp only [List.mem_append, List.mem_pair, List.mem_map] at hl
    rcases hl with ((rfl | rfl) | ⟨f, -, rfl⟩) | rfl | rfl <;> simp [projectionFieldLine]
  exact hconst.append (.of_silent hsilent)

theorem binds_operationLines {binding : String} (h : IsName binding) (fs : List FieldDef) :
    Binds (operationLines binding fs) [binding] := by
  have hplain := plain_operationLines h.oneLine fs
  unfold operationLines at hplain ⊢
  split at hplain
  · rename_i he
    rw [if_pos he]
    exact binds_export "= [] as const;".toList (List.forall_mem_singleton.mp hplain).oneLine
      (by simp) h.continues
  · rename_i he
    rw [if_neg he]
    have hconst : Binds ["export const " ++ binding ++ " = ["] [binding] :=
      binds_export "= [".toList (hplain _ List.mem_cons_self).oneLine (by simp) h.continues
    have hsilent : ∀ line ∈ fs.map operationLine ++ ["] as const;"], Silent line := by
      intro line hl
      refine ⟨(hplain line (List.mem_cons_of_mem _ hl)).oneLine, bound_of_head ?_⟩
      simp only [List.mem_append, List.mem_singleton, List.mem_map] at hl
      rcases hl with ⟨f, -, rfl⟩ | rfl <;> simp [operationLine]
    exact hconst.append (.of_silent hsilent)

theorem binds_sectionLines {α : Type} {title : String} (ht : OneLine title) {as : List α}
    {f : α → List String} {g : α → String} (h : ∀ a ∈ as, Binds (f a) [g a]) :
    Binds (sectionLines title (as.map f)) (as.map g) := by
  unfold sectionLines
  cases as with
  | nil => exact .nil
  | cons a as =>
    have htitle : Silent ("// === " ++ title ++ " ===") :=
      ⟨(plain_title ht).oneLine, bound_of_head (by simp)⟩
    have hhead : ∀ line ∈ ["// === " ++ title ++ " ===", ""], Silent line :=
      List.forall_mem_cons.mpr ⟨htitle, List.forall_mem_singleton.mpr silent_empty⟩
    have hblocks : Binds ((a :: as).flatMap f) ((a :: as).flatMap fun a => [g a]) := .flatMap h
    rw [← List.map_eq_flatMap] at hblocks
    exact (Binds.of_silent hhead).append hblocks

theorem WellFormed.binds_moduleLines (h : s.WellFormed) (options : EmitOptions) :
    Binds (s.moduleLines options)
      (s.helpers ++ (s.enums.map fun e => Naming.escape e.name ++ "Values") ++
        (s.objects.map fun o => Naming.escape (o.name ++ "Full")) ++
        (s.projected.map fun p => Naming.escape p.1.name) ++
        ["queryOperations", "mutationOperations"]) := by
  have hselected := projected_names h.object_names
  have hblank : Binds [""] [] := .of_silent (List.forall_mem_singleton.mpr silent_empty)
  have hfront : Binds ["// Generated by graphql-lean-codegen. Do not edit.", ""] [] :=
    .of_silent (List.forall_mem_cons.mpr ⟨⟨by decide, rfl⟩,
      List.forall_mem_singleton.mpr silent_empty⟩)
  have htitle : Binds ["// === Operations ===", ""] [] :=
    .of_silent (List.forall_mem_cons.mpr ⟨⟨by decide, rfl⟩,
      List.forall_mem_singleton.mpr silent_empty⟩)
  have himport : Binds (s.importLines options) s.helpers := binds_importLines
  have henums := binds_sectionLines (show OneLine "Enums" by decide) fun e hm =>
    binds_enumLines (h.enum_name e hm)
  have hfull : Binds (sectionLines "Full types" (s.objects.map fun o =>
        s.fullTypeLines options.timestamps o ++ [""]))
      (s.objects.map fun o => Naming.escape (o.name ++ "Full")) :=
    binds_sectionLines (by decide) fun o hm =>
      (binds_fullTypeLines (h.object_names o hm).1 (h.object_names o hm).2).append hblank
  have hprojections : Binds (sectionLines "Projections (all scalar and enum fields)"
        (s.projected.map fun p => s.projectionLines options.timestamps p.1 p.2 ++ [""]))
      (s.projected.map fun p => Naming.escape p.1.name) :=
    binds_sectionLines (by decide) fun p hm =>
      (binds_projectionLines (hselected p hm).1 (hselected p hm).2).append hblank
  have hqueries := binds_operationLines (show IsName "queryOperations" by decide) s.queryFields
  have hmutations := binds_operationLines (show IsName "mutationOperations" by decide)
    s.mutationFields
  have hmodule := (((((((hfront.append himport).append henums).append hfull).append
    hprojections).append htitle).append hqueries).append hblank).append hmutations
  simpa [moduleLines] using hmodule

/-- A module binds its helpers, a name for each enum and each object, another one for each object
that has a projection, and the tables of the operations. -/
theorem WellFormed.bindings_emit (h : s.WellFormed) (options : EmitOptions) :
    (s.emit options).bindings =
      s.helpers ++ (s.enums.map fun e => Naming.escape e.name ++ "Values") ++
        (s.objects.map fun o => Naming.escape (o.name ++ "Full")) ++
        (s.projected.map fun p => Naming.escape p.1.name) ++
        ["queryOperations", "mutationOperations"] :=
  (h.binds_moduleLines options).bindings_eq toList_source

/-! ## Distinct names -/

/-- The names that a module binds whatever its schema, if something needs them. -/
def fixedBindings : List String :=
  ["fullType", "plain", "projection", "t", "queryOperations", "mutationOperations"]

/-- No two names of a module are bound alike. -/
structure BindsApart (s : Schema) : Prop where
  enums : ∀ d ∈ s.enums, ∀ e ∈ s.enums, Naming.isReserved d.name = true → e.name ≠ d.name ++ "_"
  projections : ∀ p ∈ s.projected, ∀ q ∈ s.projected,
    Naming.isReserved p.1.name = true → q.1.name ≠ p.1.name ++ "_"
  fixed : ∀ p ∈ s.projected, p.1.name ∉ fixedBindings
  full : ∀ p ∈ s.projected, ∀ o ∈ s.objects, p.1.name ≠ o.name ++ "Full"
  values : ∀ p ∈ s.projected, ∀ e ∈ s.enums, p.1.name ≠ Naming.escape e.name ++ "Values"

section Distinct

variable {ds : List Definition} {suffix : String}

theorem ne_append {b : String} (h : ¬ suffix.toList <:+ b.toList) (a : String) :
    b ≠ a ++ suffix := by
  rintro rfl
  rw [String.toList_append] at h
  exact h (List.suffix_append _ _)

theorem append_injective (suffix : String) : Function.Injective (· ++ suffix) := fun a b h => by
  simpa using h

theorem isReserved_full (a : String) : Naming.isReserved (a ++ "Full") = false :=
  Naming.isReserved_append (by decide) a

theorem escape_full (a : String) : Naming.escape (a ++ "Full") = a ++ "Full" :=
  Naming.escape_of_not_reserved (isReserved_full a)

/-- The names of the definitions of one form are names of definitions, in their order. -/
theorem names_sublist {α : Type} {take : Definition → Option α} {name : α → String}
    (h : ∀ d a, take d = some a → name a = d.name) (ds : List Definition) :
    ((ds.filterMap take).map name).Sublist (ds.map Definition.name) := by
  induction ds with
  | nil => exact .slnil
  | cons d ds ih =>
    cases ht : take d with
    | none =>
      rw [List.filterMap_cons_none ht]
      exact ih.cons _
    | some a =>
      rw [List.filterMap_cons_some ht, List.map_cons, List.map_cons, h d a ht]
      exact ih.cons_cons _

theorem Records.enums_nodup (h : s.Records ds) (hn : (ds.map Definition.name).Nodup) :
    (s.enums.map EnumDef.name).Nodup := by
  rw [h.enums]
  refine (names_sublist (fun d e he => ?_) ds).nodup hn
  cases d <;> cases he
  rfl

theorem Records.objects_nodup (h : s.Records ds) (hn : (ds.map Definition.name).Nodup) :
    (s.objects.map ObjectDef.name).Nodup := by
  rw [h.objects]
  exact (names_sublist (fun _ _ => Definition.name_of_object?) ds).nodup hn

/-- The names of the objects that have a projection are names of objects, in their order. -/
theorem projected_sublist :
    (s.projected.map fun p => p.1.name).Sublist (s.objects.map (·.name)) := by
  have hs : s.projected.Sublist (s.objects.map fun o => (o, s.selectable o)) := List.filter_sublist
  simpa only [List.map_map, Function.comp_def] using hs.map fun p => p.1.name

theorem nodup_values_iff (hn : (s.enums.map EnumDef.name).Nodup) :
    (s.enums.map fun e => Naming.escape e.name ++ "Values").Nodup ↔
      ∀ d ∈ s.enums, ∀ e ∈ s.enums, Naming.isReserved d.name = true → e.name ≠ d.name ++ "_" := by
  have hm : (s.enums.map fun e => Naming.escape e.name ++ "Values") =
      ((s.enums.map EnumDef.name).map Naming.escape).map (· ++ "Values") := by simp
  rw [hm, List.nodup_map_iff (append_injective _), Naming.nodup_map_escape_iff hn]
  simp only [List.forall_mem_map]

theorem nodup_full (hn : (s.objects.map ObjectDef.name).Nodup) :
    (s.objects.map fun o => Naming.escape (o.name ++ "Full")).Nodup := by
  have hm : (s.objects.map fun o => Naming.escape (o.name ++ "Full")) =
      (s.objects.map ObjectDef.name).map (· ++ "Full") := by
    simp [escape_full]
  rw [hm]
  exact hn.map (append_injective _)

theorem nodup_projections_iff (hn : (s.objects.map ObjectDef.name).Nodup) :
    (s.projected.map fun p => Naming.escape p.1.name).Nodup ↔
      ∀ p ∈ s.projected, ∀ q ∈ s.projected, Naming.isReserved p.1.name = true →
        q.1.name ≠ p.1.name ++ "_" := by
  have hm : (s.projected.map fun p => Naming.escape p.1.name) =
      (s.projected.map fun p => p.1.name).map Naming.escape := by simp
  rw [hm, Naming.nodup_map_escape_iff (projected_sublist.nodup hn)]
  simp only [List.forall_mem_map]

/-- A module with a projection imports all helpers. -/
theorem helpers_of_projected {p : ObjectDef × List FieldDef} (h : p ∈ s.projected) :
    s.helpers = ["fullType", "plain", "projection", "t"] := by
  obtain ⟨o, ho, -⟩ := List.mem_map.mp (List.mem_of_mem_filter h)
  have hobjects : s.objects ≠ [] := List.ne_nil_of_mem ho
  have hprojected : s.projected ≠ [] := List.ne_nil_of_mem h
  rw [helpers, if_neg (by simpa using hobjects), if_neg (by simpa using hprojected)]

theorem helpers_sublist : s.helpers.Sublist ["fullType", "plain", "projection", "t"] := by
  unfold helpers
  repeat' split
  all_goals decide

/-- A fixed name is bound by a projection of an object of this name alone. -/
theorem escape_eq_fixed_iff {a b : String} (h : b ∈ fixedBindings) :
    Naming.escape a = b ↔ a = b := by
  have hfixed : ∀ b ∈ fixedBindings, Naming.isReserved b = false ∧
      b.toList.getLast? ≠ some '_' := by decide
  exact Naming.escape_eq_iff (hfixed b h).1 (hfixed b h).2

theorem escape_eq_full_iff {a b : String} : Naming.escape a = b ++ "Full" ↔ a = b ++ "Full" :=
  Naming.escape_eq_iff (isReserved_full b) (by simp)

theorem escape_eq_values_iff {a b : String} : Naming.escape a = b ++ "Values" ↔ a = b ++ "Values" :=
  Naming.escape_eq_iff (Naming.isReserved_append (by decide) b) (by simp)

theorem values_ne_full (a b : String) : a ++ "Values" ≠ b ++ "Full" := fun he => by
  have hlast := congrArg (fun name => name.toList.getLast?) he
  simp at hlast

/-- The names of a module are pairwise distinct where none of its names meet, if the enums and the
objects of the schema have names of their own. -/
theorem nodup_bindings_iff (henums : (s.enums.map EnumDef.name).Nodup)
    (hobjects : (s.objects.map ObjectDef.name).Nodup) :
    (s.helpers ++ (s.enums.map fun e => Naming.escape e.name ++ "Values") ++
      (s.objects.map fun o => Naming.escape (o.name ++ "Full")) ++
      (s.projected.map fun p => Naming.escape p.1.name) ++
      ["queryOperations", "mutationOperations"]).Nodup ↔ s.BindsApart := by
  have hends : ∀ b ∈ fixedBindings,
      ¬ "Values".toList <:+ b.toList ∧ ¬ "Full".toList <:+ b.toList := by decide
  have hhelpers : ∀ b ∈ s.helpers, b ∈ fixedBindings := fun b hb =>
    (show ∀ b ∈ ["fullType", "plain", "projection", "t"], b ∈ fixedBindings by decide) b
      (helpers_sublist.subset hb)
  have htables : ∀ b ∈ ["queryOperations", "mutationOperations"], b ∈ fixedBindings := by decide
  simp only [List.nodup_append, nodup_values_iff henums, nodup_projections_iff hobjects,
    List.forall_mem_append, List.forall_mem_map]
  -- each part against the parts before it: only projections can meet a name of another part
  constructor
  · rintro ⟨⟨⟨⟨-, hvalues, -⟩, -⟩, hprojections, ⟨hhelper, hvalue⟩, hfull⟩, -, -, htable⟩
    refine ⟨hvalues, hprojections, fun p hp hfixed => ?_, fun p hp o ho he => ?_,
      fun p hp e hm he => ?_⟩
    · have he := (escape_eq_fixed_iff hfixed).mpr rfl
      rcases List.mem_append.mp (show p.1.name ∈ ["fullType", "plain", "projection", "t"] ++
        ["queryOperations", "mutationOperations"] from hfixed) with hb | hb
      · exact hhelper _ (helpers_of_projected hp ▸ hb) p hp he.symm
      · exact htable p hp _ hb he
    · exact hfull o ho p hp (by rw [escape_full, escape_eq_full_iff.mpr he])
    · exact hvalue e hm p hp (escape_eq_values_iff.mpr he).symm
  · intro h
    refine ⟨⟨⟨⟨helpers_sublist.nodup (by decide), h.enums, fun b hb e _ => ?_⟩,
      nodup_full hobjects, fun b hb o _ => ?_, fun e _ o _ => ?_⟩, h.projections,
      ⟨fun b hb p hp he => ?_, fun e hm p hp he => ?_⟩, fun o ho p hp he => ?_⟩, by decide,
      ⟨⟨fun b hb c hc he => ?_, fun e _ b hb he => ?_⟩, fun o _ b hb he => ?_⟩,
      fun p hp b hb he => ?_⟩
    · exact ne_append (hends b (hhelpers b hb)).1 _
    · rw [escape_full]
      exact ne_append (hends b (hhelpers b hb)).2 _
    · rw [escape_full]
      exact values_ne_full _ _
    · have hfixed := hhelpers b hb
      exact h.fixed p hp ((escape_eq_fixed_iff hfixed).mp he.symm ▸ hfixed)
    · exact h.values p hp e hm (escape_eq_values_iff.mp he.symm)
    · rw [escape_full] at he
      exact h.full p hp o ho (escape_eq_full_iff.mp he.symm)
    · exact absurd (he ▸ hc) ((show ∀ b ∈ ["fullType", "plain", "projection", "t"],
        b ∉ ["queryOperations", "mutationOperations"] by decide) b (helpers_sublist.subset hb))
    · exact ne_append (hends b (htables b hb)).1 _ he.symm
    · rw [escape_full] at he
      exact ne_append (hends b (htables b hb)).2 _ he.symm
    · have hfixed := htables b hb
      exact h.fixed p hp ((escape_eq_fixed_iff hfixed).mp he ▸ hfixed)

end Distinct

/-- What a module binds, where the names of the definitions of its text are pairwise distinct: its
helpers, a name for each enum and each object, another one for each object that has a projection,
and two tables. These are pairwise distinct just where none of them meet. -/
theorem bindings_nodup_iff (text : String) (options : EmitOptions)
    (h : ((Document.ofString text).definitions.map Definition.name).Nodup) :
    let s := (Document.ofString text).schema
    (s.emit options).bindings =
        s.helpers ++ (s.enums.map fun e => Naming.escape e.name ++ "Values") ++
          (s.objects.map fun o => Naming.escape (o.name ++ "Full")) ++
          (s.projected.map fun p => Naming.escape p.1.name) ++
          ["queryOperations", "mutationOperations"] ∧
      ((s.emit options).bindings.Nodup ↔ s.BindsApart) := by
  intro s
  have hr : s.Records (Document.ofString text).definitions := records_ofDefinitions _
  have hb := (Document.schema_wellFormed text).bindings_emit options
  refine ⟨hb, ?_⟩
  rw [hb]
  exact nodup_bindings_iff (hr.enums_nodup h) (hr.objects_nodup h)

/-- An object with a field that its projection selects. -/
def aged (name : String) : ObjectDef := ⟨name, none, [⟨"age", none, .named "Int", []⟩]⟩

theorem projected_aged {name : String} (ho : s.objects = [aged name])
    (hk : s.kind? "Int" = some .scalar) : s.projected = [(aged name, (aged name).fields)] := by
  have hw : isWireName "age" = true := by cbv
  simp [projected, ho, selectable, aged, isLeafField, isComposite, hk, hw, TypeRef.baseName,
    TypeKind.isComposite]

/-- A text with an object, and an enum whose name is a reserved word. -/
def speciesText : String := "type Cat \x7b age: Int \x7d enum default \x7b CAT \x7d"

/-- Its module binds its seven names once. -/
theorem bindings_nodup_species :
    ((Document.ofString speciesText).definitions.map Definition.name).Nodup ∧
      ((Document.ofString speciesText).schema.emit {}).bindings.Nodup := by
  have hd : (Document.ofString speciesText).definitions.map Definition.name =
      ["Cat", "default"] := by cbv
  have hn : ((Document.ofString speciesText).definitions.map Definition.name).Nodup := by
    rw [hd]
    decide
  have hobjects : (Document.ofString speciesText).schema.objects = [aged "Cat"] := by cbv
  have henums : (Document.ofString speciesText).schema.enums =
      [⟨"default", none, [⟨"CAT", none⟩]⟩] := by cbv
  have hkind : (Document.ofString speciesText).schema.kind? "Int" = some .scalar := by
    rw [Document.schema, (records_ofDefinitions _).kind?]
    cbv
  obtain ⟨-, hiff⟩ := bindings_nodup_iff speciesText {} hn
  refine ⟨hn, hiff.mpr ?_⟩
  constructor <;>
    simp only [projected_aged hobjects hkind, hobjects, henums, List.forall_mem_singleton] <;>
    decide

/-- A text with an object of the name of a helper. -/
def helperText : String := "type t \x7b age: Int \x7d"

/-- Its projection is bound by the name of the helper, though the text is read without a warning and
its names are distinct. -/
theorem helperText_bound_twice :
    (Document.ofString helperText).warnings = [] ∧
      ((Document.ofString helperText).definitions.map Definition.name).Nodup ∧
      ¬ ((Document.ofString helperText).schema.emit {}).bindings.Nodup := by
  have hd : (Document.ofString helperText).definitions.map Definition.name = ["t"] := by cbv
  have hobjects : (Document.ofString helperText).schema.objects = [aged "t"] := by cbv
  have hkind : (Document.ofString helperText).schema.kind? "Int" = some .scalar := by
    rw [Document.schema, (records_ofDefinitions _).kind?]
    cbv
  have henums : (Document.ofString helperText).schema.enums = [] := by cbv
  have hp := projected_aged hobjects hkind
  have hhelpers := helpers_of_projected (hp ▸ List.mem_singleton_self _)
  refine ⟨by cbv, by rw [hd]; decide, ?_⟩
  rw [(Document.schema_wellFormed helperText).bindings_emit, hhelpers, henums, hobjects, hp]
  decide

end Schema

end GraphClient
