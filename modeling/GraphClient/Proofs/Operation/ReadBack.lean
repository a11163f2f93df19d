import GraphClient.Operation
import GraphClient.Proofs.Naming
import GraphClient.Proofs.Operation.Unambiguous
import GraphClient.Proofs.Operation.Writes
import GraphClient.Proofs.Projection.Memo
import GraphClient.Proofs.Record

/-!
# Operations are read back

The text of an operation is read by the grammar as one document only: its operation, with its
root field, the literals of its arguments in their order, and the tree of wire names of its
projection (`Operation.document`, `render_readsBack`). That is so for arguments that have
literals (`Value.Writable`) and for projections that select something (`Catalog.Selectable`).
-/

namespace GraphClient

open Executable

/-! ## Argument values -/

namespace Value

/-- Numbers are finite, and an enum value and the fields of an object have names. -/
inductive Writable : Value → Prop where
  | null : Writable null
  | bool (value : Bool) : Writable (bool value)
  | string (value : String) : Writable (string value)
  | number {x : Double} : x.isFinite = true → Writable (number x)
  | enum {name : String} : IsName name → name ∉ valueWords → Writable (enum name)
  | list {items : List Value} : (∀ v ∈ items, Writable v) → Writable (list items)
  | object {fields : List (String × Value)} : (∀ f ∈ fields, IsName f.1) →
      (∀ f ∈ fields, Writable f.2) → Writable (object fields)

mutual

/-- The literal of a value. An enum value with the word of another literal has none. -/
def literal : Value → Literal
  | null => .null
  | bool value => .bool value
  | string value => .string value
  | number x => .ofNumber x.text
  | enum name => if h : name ∉ valueWords then .enum ⟨name, h⟩ else .null
  | list items => .list (itemLiterals items)
  | object fields => .object (fieldLiterals fields)

def itemLiterals : List Value → List Literal
  | [] => []
  | v :: vs => literal v :: itemLiterals vs

def fieldLiterals : List (String × Value) → List (String × Literal)
  | [] => []
  | (name, v) :: rest => (name, literal v) :: fieldLiterals rest

end

theorem itemLiterals_eq (vs : List Value) : itemLiterals vs = vs.map literal := by
  induction vs with
  | nil => rfl
  | cons v vs ih => rw [itemLiterals, ih, List.map_cons]

theorem fieldLiterals_eq (fs : List (String × Value)) :
    fieldLiterals fs = fs.map fun f => (f.1, f.2.literal) := by
  induction fs with
  | nil => rfl
  | cons f fs ih => rw [fieldLiterals, ih, List.map_cons]

/-- A value is rendered as a text that writes its literal. -/
def RendersLiteral (v : Value) : Prop :=
  ∃ text, v.render = .ok text ∧ Writes Delimits text v.literal.terminals

theorem renderItems_writes {vs : List Value} (h : ∀ v ∈ vs, v.RendersLiteral) :
    ∃ texts, renderItems vs = .ok texts ∧
      List.Forall₂ (fun text v => Writes Delimits text (literal v).terminals) texts vs := by
  induction vs with
  | nil => exact ⟨[], rfl, .nil⟩
  | cons v vs ih =>
    obtain ⟨text, hv, hw⟩ := h v List.mem_cons_self
    obtain ⟨texts, hvs, hws⟩ := ih fun w hm => h w (List.mem_cons_of_mem v hm)
    refine ⟨text :: texts, ?_, .cons hw hws⟩
    rw [renderItems, hv, hvs]
    rfl

/-- A name with a value behind it. -/
theorem writes_named {key text : String} {ws : List Terminal} (hk : IsName key)
    (h : Writes Delimits text ws) :
    Writes Delimits (key ++ ": " ++ text) (.name key :: .punctuator .colon :: ws) := by
  have hcolon : Writes Anything ": " [.punctuator .colon] := .marks rfl
  exact ((Writes.name hk).before_delimiter rfl (by decide) hcolon).andThen h

theorem renderFields_writes {fs : List (String × Value)} (hk : ∀ f ∈ fs, IsName f.1)
    (h : ∀ f ∈ fs, f.2.RendersLiteral) :
    ∃ texts, renderFields fs = .ok texts ∧ List.Forall₂
      (fun text f => Writes Delimits text (argumentTerminals (f.1, literal f.2))) texts fs := by
  induction fs with
  | nil => exact ⟨[], rfl, .nil⟩
  | cons f fs ih =>
    obtain ⟨text, hv, hw⟩ := h f List.mem_cons_self
    obtain ⟨texts, hvs, hws⟩ := ih (fun g hm => hk g (List.mem_cons_of_mem f hm))
      fun g hm => h g (List.mem_cons_of_mem f hm)
    refine ⟨(f.1 ++ ": " ++ text) :: texts, ?_,
      .cons (writes_named (hk f List.mem_cons_self) hw) hws⟩
    rw [renderFields, hv, hvs]
    rfl

/-- Texts with commas between them, in brackets. -/
theorem writes_bracketed {α : Type} {o c : Punctuator} {left right : String} {texts : List String}
    {as : List α} {terminals : α → List Terminal} {d : Char} {cs : List Char}
    (hl : Writes Anything left [.punctuator o]) (hr : Writes Anything right [.punctuator c])
    (hd : right.toList = d :: cs) (hm : d ∈ delimiters)
    (h : List.Forall₂ (fun text a => Writes Delimits text (terminals a)) texts as) :
    Writes Anything (left ++ ", ".intercalate texts ++ right) (bracketed o c terminals as) := by
  have hcomma : Writes Anything ", " [] := .marks rfl
  rw [String.append_assoc]
  exact hl.andThen ((Writes.intercalate hcomma rfl (by decide) h).before_delimiter hd hm hr)

theorem render_writes {v : Value} (h : v.Writable) : v.RendersLiteral := by
  induction h with
  | null => exact ⟨_, rfl, .name (by decide)⟩
  | bool value =>
    cases value with
    | true => exact ⟨_, rfl, .name (by decide)⟩
    | false => exact ⟨_, rfl, .name (by decide)⟩
  | string value => exact ⟨_, rfl, .quote value⟩
  | number hx => exact ⟨_, by rw [render, if_pos hx], .number hx⟩
  | @enum name hn hw =>
    refine ⟨name, rfl, ?_⟩
    rw [literal, dif_pos hw]
    exact .name hn
  | @list items _ ih =>
    obtain ⟨texts, hr, hw⟩ := renderItems_writes ih
    refine ⟨"[" ++ ", ".intercalate texts ++ "]", by rw [render, hr]; rfl, ?_⟩
    rw [literal, itemLiterals_eq, Literal.terminals_list, bracketed_map]
    exact (writes_bracketed (.marks rfl) (.marks rfl) rfl (by decide) hw).weaken
  | @object fields hk _ ih =>
    obtain ⟨texts, hr, hw⟩ := renderFields_writes hk ih
    refine ⟨"\x7b" ++ ", ".intercalate texts ++ "\x7d", by rw [render, hr]; rfl, ?_⟩
    rw [literal, fieldLiterals_eq, Literal.terminals_object, bracketed_map]
    exact (writes_bracketed (.marks rfl) (.marks rfl) rfl (by decide) hw).weaken

end Value

/-! ## Selections -/

/-- A field with nothing but the fields selected of it. -/
def Executable.Selection.plain (name : String) (selections : List Selection) : Selection :=
  .field none name [] [] selections

theorem writes_plain {name : String} (hn : IsName name) :
    Writes Delimits name (Selection.plain name []).terminals := by
  rw [Selection.plain, Selection.terminals_field]
  exact .name hn

/-- A text with selections in braces behind it. -/
theorem writes_braced {front text : String} {ws : List Terminal} {ss : List Selection}
    (hf : Writes Delimits front ws) (h : Writes Delimits text (ss.flatMap Selection.terminals)) :
    Writes Anything (front ++ " \x7b " ++ text ++ " \x7d")
      (ws ++ bracketed .braceL .braceR Selection.terminals ss) := by
  have hopen : Writes Anything " \x7b " [.punctuator .braceL] := .marks rfl
  have hclose : Writes Anything " \x7d" [.punctuator .braceR] := .marks rfl
  have hb := ((hf.before_delimiter rfl (by decide) hopen).andThen h).before_delimiter rfl
    (by decide) hclose
  simpa only [bracketed, List.append_assoc, List.cons_append, List.nil_append] using hb

/-- A field with its arguments and its selections. -/
theorem writes_field {front name text : String} {arguments : Arguments} {ss : List Selection}
    (hf : Writes Delimits front (.name name :: arguments.terminals)) (hs : ss ≠ [])
    (h : Writes Delimits text (ss.flatMap Selection.terminals)) :
    Writes Anything (front ++ " \x7b " ++ text ++ " \x7d")
      (Selection.field none name arguments [] ss).terminals := by
  rw [Selection.terminals_field, group_eq _ _ hs]
  exact writes_braced hf h

/-- Fields with spaces between them. -/
theorem writes_fields {texts : List String} {ss : List Selection}
    (h : List.Forall₂ (fun text s => Writes Delimits text s.terminals) texts ss) :
    Writes Delimits (" ".intercalate texts) (ss.flatMap Selection.terminals) := by
  have hblank : Writes Anything " " [] := .marks rfl
  exact .intercalate hblank rfl (by decide) h

namespace Catalog

variable {n : Nat}

def fieldTree (tree : Fin n → List Selection) (key : String) : ProjectionField n → Selection
  | .plain _ => .plain (Naming.wireName key) []
  | .nested target _ => .plain (Naming.wireName key) (tree target)

/-- The wire names that a projection selects, in the order of its fields. -/
def tree (c : Catalog n) (i : Fin n) : List Selection :=
  c.fold (fun _ p tree => p.fields.entries.map fun e => fieldTree tree e.1 e.2) i

def FieldSelectable (selectable : Fin n → Prop) : ProjectionField n → Prop
  | .plain _ => True
  | .nested target _ => selectable target

/-- A projection has fields, their keys are names, and so it is with those nested in it. -/
def Selectable (c : Catalog n) (i : Fin n) : Prop :=
  c.fold (fun _ p selectable => p.fields.entries ≠ [] ∧
    ∀ e ∈ p.fields.entries, IsName e.1 ∧ FieldSelectable selectable e.2) i

/-- The selection of a projection is not empty, and its text writes its tree. -/
def Selects (select : Fin n → String) (tree : Fin n → List Selection) (i : Fin n) : Prop :=
  tree i ≠ [] ∧ Writes Delimits (select i) ((tree i).flatMap Selection.terminals)

theorem selectField_writes {select : Fin n → String} {tree : Fin n → List Selection}
    {selectable : Fin n → Prop} (h : ∀ j, selectable j → Selects select tree j) {key : String}
    (hk : IsName key) {f : ProjectionField n} (hf : FieldSelectable selectable f) :
    Writes Delimits (selectField select key f) (fieldTree tree key f).terminals := by
  have hw := Naming.isName_wireName hk
  cases f with
  | plain type => exact writes_plain hw
  | nested target wrap =>
    obtain ⟨hne, ht⟩ := h target hf
    exact (writes_field (.name hw) hne ht).weaken

theorem selection_selects {n : Nat} {c : Catalog n} (i : Fin n) (h : c.Selectable i) :
    Selects c.selection c.tree i := by
  induction c with
  | empty => exact i.elim0
  | @declare n earlier p ih =>
    cases i using Fin.lastCases with
    | cast i =>
      rw [Selectable, fold_castSucc] at h
      obtain ⟨hne, hw⟩ := ih i h
      rw [Selects, selection_castSucc, tree, fold_castSucc]
      exact ⟨hne, hw⟩
    | last =>
      rw [Selectable, fold_last] at h
      rw [Selects, selection_last, tree, fold_last]
      refine ⟨by simpa using h.1, writes_fields ?_⟩
      rw [List.forall₂_map_left_iff, List.forall₂_map_right_iff, List.forall₂_same]
      exact fun e he => selectField_writes ih (h.2 e he).1 (h.2 e he).2

end Catalog

/-! ## Operations -/

namespace Operation

def type : OperationKind → OperationType
  | .query | .connection => .query
  | .mutation => .mutation

/-- What is selected of the root field. -/
def selections (kind : OperationKind) (tree : List Selection) : List Selection :=
  match kind with
  | .query | .mutation => tree
  | .connection =>
    [.plain "nodes" tree, .plain "pageInfo" [.plain "hasNextPage" [], .plain "endCursor" []]]

/-- The literals of the arguments. -/
def literals (args : Record Value) : Arguments := args.entries.map fun a => (a.1, a.2.literal)

/-- The document that an operation stands for, with a tree for its selection. -/
def document (o : Operation) (tree : List Selection) : Executable.Document :=
  ⟨.operation (type o.kind) none [] []
    ⟨.field none o.field (literals o.arguments) [] (selections o.kind tree), []⟩, []⟩

theorem renderArguments_writes {args : Record Value}
    (h : ∀ a ∈ args.entries, IsName a.1 ∧ a.2.Writable) {field : String} (hf : IsName field) :
    ∃ text, renderArguments args = .ok text ∧
      Writes Delimits (field ++ text) (.name field :: (literals args).terminals) := by
  obtain ⟨texts, hr, hw⟩ := Value.renderFields_writes (fun a ha => (h a ha).1)
    fun a ha => Value.render_writes (h a ha).2
  unfold renderArguments literals Record.isEmpty
  rw [hr]
  cases he : args.entries with
  | nil => exact ⟨"", rfl, by rw [String.append_empty]; exact .name hf⟩
  | cons a as =>
    rw [he] at hw
    refine ⟨"(" ++ ", ".intercalate texts ++ ")", rfl, ?_⟩
    have hb : Writes Anything ("(" ++ ", ".intercalate texts ++ ")")
        (bracketed .parenL .parenR (fun a => argumentTerminals (a.1, a.2.literal)) (a :: as)) :=
      Value.writes_bracketed (.marks rfl) (.marks rfl) rfl (by decide) hw
    have htext : ("(" ++ ", ".intercalate texts ++ ")").toList =
        '(' :: ((", ".intercalate texts).toList ++ [')']) := by simp
    rw [← bracketed_map] at hb
    exact ((Writes.name hf).before_delimiter htext (by decide) hb).weaken

/-- What the root field selects is not empty, and its text writes its tree. -/
theorem body_writes {kind : OperationKind} {text : String} {tree : List Selection}
    (ht : tree ≠ []) (h : Writes Delimits text (tree.flatMap Selection.terminals)) :
    selections kind tree ≠ [] ∧
      Writes Delimits (body kind text) ((selections kind tree).flatMap Selection.terminals) := by
  cases kind with
  | query | mutation => exact ⟨ht, h⟩
  | connection =>
    have hinfo : Writes Delimits (" ".intercalate ["hasNextPage", "endCursor"])
        ([Selection.plain "hasNextPage" [], .plain "endCursor" []].flatMap Selection.terminals) :=
      writes_fields (.cons (writes_plain (by decide)) (.cons (writes_plain (by decide)) .nil))
    have hnodes : Writes Anything ("nodes" ++ " \x7b " ++ text ++ " \x7d")
        (Selection.plain "nodes" tree).terminals := writes_field (.name (by decide)) ht h
    have hpage : Writes Anything ("pageInfo" ++ " \x7b " ++
        " ".intercalate ["hasNextPage", "endCursor"] ++ " \x7d")
        (Selection.plain "pageInfo" [.plain "hasNextPage" [], .plain "endCursor" []]).terminals :=
      writes_field (.name (by decide)) (List.cons_ne_nil _ _) hinfo
    refine ⟨List.cons_ne_nil _ _, ?_⟩
    have hboth := writes_fields (.cons hnodes.weaken (.cons hpage.weaken .nil))
    refine cast (congrArg (Writes Delimits · _) ?_) hboth
    exact String.ext (by simp [body])

theorem render_writes {o : Operation} (hf : IsName o.field)
    (ha : ∀ a ∈ o.arguments.entries, IsName a.1 ∧ a.2.Writable) {selection : String}
    {tree : List Selection} (ht : tree ≠ [])
    (h : Writes Delimits selection (tree.flatMap Selection.terminals)) :
    ∃ text, o.render selection = .ok text ∧
      Writes Anything text (o.document tree).terminals := by
  obtain ⟨args, hr, hw⟩ := renderArguments_writes ha hf
  obtain ⟨hne, hb⟩ := @body_writes o.kind selection tree ht h
  have hkeyword : Writes Delimits (keyword o.kind) [.name (type o.kind).keyword] := by
    cases o.kind <;> exact .name (by decide)
  have hroot : Writes Delimits (o.field ++ args ++ " \x7b " ++ body o.kind selection ++ " \x7d")
      ([Selection.field none o.field (literals o.arguments) [] (selections o.kind tree)].flatMap
        Selection.terminals) := by
    rw [List.flatMap_singleton]
    exact (writes_field hw hne hb).weaken
  have hall := writes_braced hkeyword hroot
  refine ⟨_, by rw [render, hr]; rfl, ?_⟩
  have hterminals : (o.document tree).terminals = [.name (type o.kind).keyword] ++
      bracketed .braceL .braceR Selection.terminals
        [.field none o.field (literals o.arguments) [] (selections o.kind tree)] := by
    rw [document, Executable.Document.terminals, List.flatMap_singleton]
    rfl
  rw [hterminals]
  refine cast (congrArg (Writes Anything · _) ?_) hall
  exact String.ext (by simp)

/-- Whatever selections were asked for before, the text of an operation has tokens without a
fault, and of all documents these derive from that of the operation only: its one definition is of
the kind of the operation, selects the root field with the literals of the arguments in their order,
and of it the tree of wire names of the projection. -/
theorem render_readsBack {n : Nat} (c : Catalog n) (asked : List (Fin n)) (i : Fin n)
    (o : Operation) (hi : c.Selectable i) (hf : IsName o.field)
    (ha : ∀ a ∈ o.arguments.entries, IsName a.1 ∧ a.2.Writable) :
    ∃ text, o.render (c.ask i (c.remembered asked)).1 = .ok text ∧
      (lex (Source.ofString text)).fault = none ∧
      ∀ d : Executable.Document,
        d.terminals = (lex (Source.ofString text)).tokens.map Token.terminal ↔
          d = o.document (c.tree i) := by
  obtain ⟨hne, hw⟩ := Catalog.selection_selects i hi
  obtain ⟨text, hr, ht⟩ := render_writes hf ha hne hw
  obtain ⟨hfault, htokens⟩ := ht.lex
  rw [Catalog.ask_remembered]
  refine ⟨text, hr, hfault, fun d => ?_⟩
  rw [htokens]
  exact ⟨terminals_inj, congrArg Executable.Document.terminals⟩

/-- A state, and an issue with its state. -/
def stateRef : Projection 0 :=
  ⟨"StateRef", none, .ofPairs [("id", .plain .string), ("name", .plain (.optional .string))]⟩

def issueSummary : Projection 1 :=
  ⟨"IssueSummary", none,
    .ofPairs [("id", .plain .string), ("created_at", .plain .string), ("state", .nested 0 .one)]⟩

def issues : Catalog 2 := (Catalog.empty.declare stateRef).declare issueSummary

/-- Issues of a kind that mention some text. -/
def issueConnection : Operation :=
  ⟨.connection, "issues", .ofPairs [("first", .number ⟨0x4049000000000000⟩),
    ("filter", .object [("kind", .enum "BUG"), ("texts", .list [.string "say \"hi\"", .null])])]⟩

theorem entries_stateRef : stateRef.fields.entries =
    [("id", .plain .string), ("name", .plain (.optional .string))] :=
  Record.entries_ofPairs (by decide) (by decide)

theorem entries_issueSummary : issueSummary.fields.entries =
    [("id", .plain .string), ("created_at", .plain .string), ("state", .nested 0 .one)] :=
  Record.entries_ofPairs (by decide) (by decide)

theorem selectable_issues : issues.Selectable (Fin.last 1) := by
  have hstate : (Catalog.empty.declare stateRef).Selectable (Fin.last 0) := by
    rw [Catalog.Selectable, Catalog.fold_last, entries_stateRef]
    simp only [List.forall_mem_cons]
    exact ⟨List.cons_ne_nil _ _, ⟨by decide, trivial⟩, ⟨by decide, trivial⟩, fun _ h => by cases h⟩
  rw [issues, Catalog.Selectable, Catalog.fold_last, entries_issueSummary]
  simp only [List.forall_mem_cons]
  exact ⟨List.cons_ne_nil _ _, ⟨by decide, trivial⟩, ⟨by decide, trivial⟩, ⟨by decide, hstate⟩,
    fun _ h => by cases h⟩

theorem tree_issues : issues.tree (Fin.last 1) =
    [.plain "id" [], .plain "createdAt" [], .plain "state" [.plain "id" [], .plain "name" []]] := by
  have hstate : (Catalog.empty.declare stateRef).tree (Fin.last 0) =
      [.plain "id" [], .plain "name" []] := by
    rw [Catalog.tree, Catalog.fold_last, entries_stateRef]
    rfl
  rw [issues, Catalog.tree, Catalog.fold_last, entries_issueSummary]
  exact congrArg (fun ss => [Selection.plain "id" [], .plain "createdAt" [], .plain "state" ss]) hstate

theorem writable_issueConnection :
    ∀ a ∈ issueConnection.arguments.entries, IsName a.1 ∧ a.2.Writable := by
  have hentries : issueConnection.arguments.entries = _ :=
    Record.entries_ofPairs (by decide) (by decide)
  have htexts : (Value.list [.string "say \"hi\"", .null]).Writable := by
    refine .list ?_
    simp only [List.forall_mem_cons]
    exact ⟨.string _, .null, fun _ h => by cases h⟩
  have hfilter : (Value.object
      [("kind", .enum "BUG"), ("texts", .list [.string "say \"hi\"", .null])]).Writable := by
    refine .object (by decide) ?_
    simp only [List.forall_mem_cons]
    exact ⟨.enum (by decide) (by decide), htexts, fun _ h => by cases h⟩
  rw [hentries]
  simp only [List.forall_mem_cons]
  exact ⟨⟨by decide, .number (by decide)⟩, ⟨by decide, hfilter⟩, fun _ h => by cases h⟩

/-- The connection of issues is read back, after the selection of the states was asked for. -/
theorem render_readsBack_issues :
    issues.Selectable (Fin.last 1) ∧ IsName issueConnection.field ∧
      ∃ text, issueConnection.render
          (issues.ask (Fin.last 1) (issues.remembered [0])).1 = .ok text ∧
        (lex (Source.ofString text)).fault = none ∧
        ∀ d : Executable.Document,
          d.terminals = (lex (Source.ofString text)).tokens.map Token.terminal ↔
            d = issueConnection.document [.plain "id" [], .plain "createdAt" [],
              .plain "state" [.plain "id" [], .plain "name" []]] := by
  rw [← tree_issues]
  exact ⟨selectable_issues, by decide, render_readsBack issues [0] (Fin.last 1) issueConnection
    selectable_issues (by decide) writable_issueConnection⟩

end Operation

end GraphClient
