import Mathlib
import GraphClient.Proofs.Document.Closing
import GraphClient.Proofs.Schema.Records

/-!
# Documents that are followed by a text

A document is closed if it is read without warnings and ends with a closing brace that is not
in an extension (`Document.IsClosed`). Any text may follow it, on a new line: the definitions of
both are read as if they were alone, and the warnings are those of the text, further down
(`Document.ofString_followed`). So the schema is that of the document with what the text
defines (`Document.schema_followed`).
-/

namespace GraphClient

namespace Parse

variable {o : Offset} {us : List Token} {c c' d : Cursor}

/-- The tokens from each definition on that is read. -/
def starts (c : Cursor) : List (List Token) :=
  if c.rest.isEmpty then []
  else if (entry c).cursor.rest.length < c.rest.length then c.rest :: starts (entry c).cursor
  else [c.rest]
termination_by c.rest.length

/-- The keyword of the last definition that is read. -/
def lastKeyword? (c : Cursor) : Option Keyword := (starts c).getLast?.bind startKeyword?

/-- Without warnings no issue cut a definition short. -/
theorem definition_of_entry {a : Option GraphClient.Definition} (h : entry c = ⟨[], d, .ok a⟩) :
    definition c = ⟨[], d, .ok (a, none)⟩ := by
  rcases entry_eq_ok h with h | ⟨ws, e, i, hw, -⟩
  · exact h
  · cases (List.append_eq_nil_iff.mp hw.symm).2

theorem answers_entry : Answers entry := by
  intro c
  rcases hd : definition c with ⟨ws, e, i | ⟨x, _ | i⟩⟩
  · exact ⟨_, _, _, entry_recovers (.inr ⟨hd, rfl⟩)⟩
  · exact ⟨_, _, _, entry_ok hd⟩
  · exact ⟨_, _, _, entry_recovers (.inl hd)⟩

section Heads

variable {line : Nat} {t : Token} {ts : List Token}

/-- A description is read from the first token, or it is none. -/
theorem description_head (t : Token) (ts : List Token) :
    (afterDescription (t :: ts) = ts ∧
        ∃ a, ∀ line, description ⟨line, t :: ts⟩ = ⟨[], ⟨t.line, ts⟩, .ok a⟩) ∨
      afterDescription (t :: ts) = t :: ts ∧
        ∀ line, description ⟨line, t :: ts⟩ = ⟨[], ⟨line, t :: ts⟩, .ok none⟩ := by
  cases hs : t.string? with
  | some s =>
    exact .inl ⟨if_pos (by rw [Token.isString, hs]; rfl), _, fun _ => description_reads hs⟩
  | none =>
    refine .inr ⟨if_neg (by rw [Token.isString, hs]; exact Bool.noConfusion), fun _ => ?_⟩
    exact description_passes fun u hu => by
      cases hu
      exact hs

/-- What tokens are taken for that are no definition. -/
def unexpected (ts : List Token) : Issue :=
  ⟨(afterDescription ts).head?.map (·.toOccurrence), .definition⟩

/-- Tokens that are no definition raise one issue, and reading goes on behind the first of them. -/
theorem entry_stray (h : startKeyword? (t :: ts) = none) :
    entry ⟨line, t :: ts⟩ = ⟨[.malformed none (unexpected (t :: ts))],
      Cursor.toDefinition ⟨t.line, ts⟩, .ok none⟩ := by
  rw [startKeyword?] at h
  rw [unexpected]
  rcases description_head t ts with ⟨ha, a, hd⟩ | ⟨ha, hd⟩ <;> rw [ha] at h ⊢
  · have hdef := (definition_apply (hd line)).trans (congrArg (described a · _) h)
    rw [entry_recovers (.inr ⟨hdef, rfl⟩), resume, if_neg (by simp)]
    rfl
  · have hdef := (definition_apply (hd line)).trans (congrArg (described none · _) h)
    rw [entry_recovers (.inr ⟨hdef, rfl⟩), resume, if_pos rfl]
    rfl

/-- The line above a definition does not matter. -/
theorem entry_line (line line' : Nat) : entry ⟨line, t :: ts⟩ = entry ⟨line', t :: ts⟩ := by
  cases hk : startKeyword? (t :: ts) with
  | none => rw [entry_stray hk, entry_stray hk]
  | some k =>
    have hdef : definition ⟨line, t :: ts⟩ = definition ⟨line', t :: ts⟩ := by
      rw [startKeyword?] at hk
      rcases description_head t ts with ⟨-, a, hd⟩ | ⟨ha, hd⟩
      · rw [definition_apply (hd line), definition_apply (hd line')]
      · rw [ha] at hk
        rw [definition_apply (hd line), definition_apply (hd line'), hk]
        rfl
    rw [entry, entry, hdef]

end Heads

/-- A definition that is read without warnings takes its keyword at least. -/
theorem entry_shorter {a : Option GraphClient.Definition} (h : entry c = ⟨[], d, .ok a⟩) :
    d.rest.length < c.rest.length := by
  obtain ⟨b, k, ts, keyword, -, hsuffix, -, hbody⟩ := definition_eq_ok (definition_of_entry h)
  have hs := (local_body b keyword ⟨k.line, ts⟩).passes.suffix
  rw [hbody] at hs
  exact Nat.lt_of_le_of_lt hs.length_le hsuffix.length_le

theorem definitions_stop (h : c.rest = []) : definitions c = ⟨[], c, .ok []⟩ :=
  loop_stop (by rw [h]; rfl)

theorem definitions_step {ws : List Warning} {a : Option GraphClient.Definition}
    (h : entry c = ⟨ws, d, .ok a⟩) (hl : d.rest.length < c.rest.length) : definitions c =
      ((definitions d).andThen fun as => pure (a.toList ++ as)).withEarlier ws := by
  refine loop_step ?_ h hl
  cases hn : c.rest with
  | nil =>
    rw [hn] at hl
    cases hl
  | cons t ts => rfl

/-- Definitions that are read without warnings are read one by one. -/
theorem definitions_cons {ds : List GraphClient.Definition} (h : definitions c = ⟨[], d, .ok ds⟩)
    (hn : c.rest ≠ []) : ∃ e a as, entry c = ⟨[], e, .ok a⟩ ∧
      definitions e = ⟨[], d, .ok as⟩ ∧ ds = a.toList ++ as := by
  obtain ⟨ws, e, a, he⟩ := answers_entry c
  by_cases hl : e.rest.length < c.rest.length
  · rw [definitions_step he hl] at h
    rcases hd : definitions e with ⟨vs, f, i | as⟩ <;> rw [hd] at h
    · cases (congrArg Outcome.result h : Except.error i = .ok ds)
    · obtain ⟨rfl, hv⟩ := List.append_eq_nil_iff.mp (congrArg Outcome.warnings h)
      obtain ⟨rfl, -⟩ := List.append_eq_nil_iff.mp hv
      cases h
      exact ⟨e, a, as, he, hd, rfl⟩
  · have hcont : (!c.rest.isEmpty) = true := by
      cases hr : c.rest with
      | nil => exact absurd hr hn
      | cons t ts => rfl
    have hlast : definitions c = ⟨ws, e, .ok a.toList⟩ := loop_last hcont he hl
    rw [hlast] at h
    cases h
    exact absurd (entry_shorter he) hl

theorem starts_cons {e : Cursor} {a : Option GraphClient.Definition}
    (h : entry c = ⟨[], e, .ok a⟩) :
    starts c = c.rest :: starts e := by
  have hl := entry_shorter h
  rw [starts, h, if_pos hl]
  cases hr : c.rest with
  | nil =>
    rw [hr] at hl
    cases hl
  | cons t ts => rfl

theorem starts_ne_nil {c : Cursor} (h : c.rest ≠ []) : starts c ≠ [] := by
  rw [starts]
  split
  · rename_i he
    exact absurd (List.isEmpty_iff.mp he) h
  · split <;> exact List.cons_ne_nil _ _

/-- The definitions up to a closing brace are read the same when more tokens follow. -/
theorem definitions_before {ds : List GraphClient.Definition}
    (h : definitions c = ⟨[], d, .ok ds⟩) (he : Ends c.rest)
    (hk : lastKeyword? c ≠ some .extend) (hm : c.Mirrors o us c') :
    ∃ d', d'.rest = us ∧
      definitions c' = (definitions d').andThen fun es => pure (ds ++ es) := by
  induction hn : c.rest.length using Nat.strongRecOn generalizing c c' ds with
  | _ n ih =>
    obtain ⟨e, a, as, hentry, hrest, rfl⟩ := definitions_cons h he.ne_nil
    have hl := entry_shorter hentry
    rw [lastKeyword?, starts_cons hentry] at hk
    have step : ∀ e', entry c' = ⟨[], e', .ok a⟩ → e.Mirrors o us e' →
        definitions c' = (definitions e').andThen fun bs => pure (a.toList ++ bs) :=
      fun e' he' hm' => definitions_step he' ((hm.shorter hm').mpr hl)
    by_cases hr : e.rest = []
    · -- the last definition ends with the brace
      have hs : starts e = [] := by rw [starts, hr]; rfl
      rw [hs] at hk
      rw [definitions_stop hr] at hrest
      cases hrest
      obtain ⟨d', hd', hm'⟩ := definition_closes (definition_of_entry hentry) hk he hm
      have hus := hm'.rest
      rw [hr] at hus
      refine ⟨d', ?_, ?_⟩
      · cases hd : d'.rest with
        | nil => rw [hd] at hus; cases hus; rfl
        | cons t ts => rw [hd] at hus; cases hus; rfl
      · rw [step d' (entry_ok hd') hm', List.append_nil]
    · have hs := (local_entry c).passes.suffix
      rw [hentry] at hs
      have hee : Ends e.rest := he.of_suffix hs hr
      rw [List.getLast?_cons_of_ne_nil (starts_ne_nil hr)] at hk
      obtain ⟨e', he', hm'⟩ := (local_entry c).of_ends hentry hee hm
      obtain ⟨d', hd', hdefs⟩ := ih _ (hn ▸ hl) hrest hee hk hm' rfl
      refine ⟨d', hd', ?_⟩
      rw [step e' he' hm', hdefs, andThen_andThen]
      congr 1
      funext es
      rw [List.append_assoc]
      rfl

theorem answers_definitions : Answers definitions := answers_loop answers_entry

theorem definitions_line {ts : List Token} (h : ts ≠ []) (line line' : Nat) :
    definitions ⟨line, ts⟩ = definitions ⟨line', ts⟩ := by
  obtain ⟨t, us, rfl⟩ := List.exists_cons_of_ne_nil h
  obtain ⟨ws, d, a, he⟩ := answers_entry ⟨line, t :: us⟩
  have he' := (entry_line line' line).trans he
  by_cases hl : d.rest.length < (t :: us).length
  · rw [definitions_step he hl, definitions_step he' hl]
  · exact (loop_last rfl he hl).trans (loop_last rfl he' hl).symm

end Parse

namespace Document

open Parse

section Tokens

variable {o : Offset} {ts us us' : List Token}

theorem ofTokens_eq {ws : List Warning} {d : Cursor} {ds : List Definition}
    (h : Parse.definitions ⟨0, ts⟩ = ⟨ws, d, .ok ds⟩) : ofTokens ts = ⟨ds, ws⟩ := by
  rw [ofTokens, h]

/-- Definitions are read the same further down, behind any line. -/
theorem definitions_copies {line : Nat} (hc : Copies o [] us us') :
    ∃ c, Parse.definitions ⟨line, us'⟩ =
      ⟨(ofTokens us).warnings.map (Warning.down o), c, .ok (ofTokens us).definitions⟩ := by
  obtain ⟨ws, d, ds, hds⟩ := answers_definitions ⟨0, us⟩
  -- behind the line that stands for the first one, the cursor mirrors that of the tokens alone
  have hm : Cursor.Mirrors o [] ⟨0, us⟩ ⟨o.lines, us'⟩ :=
    ⟨hc, fun _ _ => Nat.lt_add_left_iff_pos.symm⟩
  have hmir := (local_definitions ⟨0, us⟩).mirrors hm (.inl rfl)
  rw [hds] at hmir
  obtain ⟨c, hdefs, -⟩ := hmir.of_ok
  rw [ofTokens_eq hds]
  cases hc with
  | nil => exact ⟨⟨line, []⟩, by rw [definitions_stop rfl] at hds ⊢; cases hds; rfl⟩
  | cons _ => exact ⟨c, (definitions_line (List.cons_ne_nil _ _) line _).trans hdefs⟩

/-- Definitions are read the same behind any line. -/
theorem definitions_behind (line : Nat) (ts : List Token) :
    ∃ c, Parse.definitions ⟨line, ts⟩ =
      ⟨(ofTokens ts).warnings, c, .ok (ofTokens ts).definitions⟩ := by
  have hc : Copies ⟨0, 0⟩ [] ts ts := by simpa using copies_append ts []
  obtain ⟨c, hdefs⟩ := @definitions_copies _ _ _ line hc
  refine ⟨c, hdefs.trans ?_⟩
  rw [List.map_congr_left fun w _ => w.down_zero, List.map_id']

/-- Tokens that are read without warnings up to a closing brace may stand before any others. -/
theorem ofTokens_followed (hw : (ofTokens ts).warnings = []) (he : Ends ts)
    (hk : lastKeyword? ⟨0, ts⟩ ≠ some .extend) (hc : Copies o [] us us') :
    ofTokens (ts ++ us') = ⟨(ofTokens ts).definitions ++ (ofTokens us).definitions,
      (ofTokens us).warnings.map (Warning.down o)⟩ := by
  obtain ⟨ws, d, ds, hd⟩ := answers_definitions ⟨0, ts⟩
  rw [ofTokens_eq hd] at hw ⊢
  obtain rfl : ws = [] := hw
  have hm : Cursor.Mirrors ⟨0, 0⟩ us' ⟨0, ts⟩ ⟨0, ts ++ us'⟩ :=
    ⟨copies_append ts us', fun _ _ => Iff.rfl⟩
  obtain ⟨⟨line, vs⟩, rfl, hdefs⟩ := definitions_before hd he hk hm
  obtain ⟨c, hc'⟩ := @definitions_copies _ _ _ line hc
  rw [hc'] at hdefs
  have hall : Parse.definitions ⟨0, ts ++ vs⟩ = ⟨(ofTokens us).warnings.map (Warning.down o) ++ [],
      c, .ok (ds ++ (ofTokens us).definitions)⟩ := hdefs
  rw [List.append_nil] at hall
  exact ofTokens_eq hall

end Tokens

/-- A text that is read without warnings up to a closing brace that is not in an extension. -/
structure IsClosed (d : String) : Prop where
  warnings : (ofString d).warnings = []
  ends : Ends (tokenize (Source.ofString d)).tokens
  last : lastKeyword? ⟨0, (tokenize (Source.ofString d)).tokens⟩ ≠ some .extend

/-- How far down a text stands on a new line behind another one. -/
def below (d : String) : Offset := .behind (Source.ofString d ++ [.whole '\n'])

/-- Any text may be put behind one without faults, on a new line. -/
theorem tokenize_followed {d : String} (h : (tokenize (Source.ofString d)).faults = [])
    (s : String) : ∃ us,
      (tokenize (Source.ofString (d ++ "\n" ++ s))).tokens =
        (tokenize (Source.ofString d)).tokens ++ us ∧
      Copies (below d) [] (tokenize (Source.ofString s)).tokens us ∧
      (tokenize (Source.ofString (d ++ "\n" ++ s))).faults =
        (tokenize (Source.ofString s)).faults.map (Fault.down (below d)) := by
  have hlex : (lex (Source.ofString d)).fault = none := fault_eq_none h
  obtain ⟨⟨gap, place⟩, hp, hscan⟩ := scans_line hlex
  obtain rfl : place = Place.start.down (below d) := hp.trans (start_down_behind _).symm
  obtain ⟨us, htokens, hc, hfaults⟩ := tokenize_behind hscan rfl rfl (Source.ofString s)
  have htext : Source.ofString (d ++ "\n" ++ s) =
      Source.ofString d ++ [.whole '\n'] ++ Source.ofString s := by
    rw [ofString_append, ofString_append]
    rfl
  rw [← htext] at htokens hfaults
  rw [tokenize_faultless hlex]
  exact ⟨us, htokens, hc, hfaults⟩

/-- Any text may follow a closed one on a new line. -/
theorem ofString_followed {d : String} (h : IsClosed d) (s : String) :
    ofString (d ++ "\n" ++ s) = ⟨(ofString d).definitions ++ (ofString s).definitions,
      (ofString s).warnings.map (Warning.down (below d))⟩ := by
  obtain ⟨hfaults, hw⟩ := List.append_eq_nil_iff.mp h.warnings
  have hd : (tokenize (Source.ofString d)).faults = [] := List.map_eq_nil_iff.mp hfaults
  obtain ⟨us, htokens, hc, hfaults'⟩ := tokenize_followed hd s
  have hdoc := ofTokens_followed hw h.ends h.last hc
  rw [ofString, htokens, hfaults', hdoc]
  simp only [ofString, List.map_append, List.map_map]
  rfl

/-- A schema with what a document defines besides. -/
structure Merges (m s : Schema) (e : Document) : Prop where
  scalars : m.scalars = s.scalars ++ e.schema.scalars
  enums : m.enums = s.enums ++ e.schema.enums
  objects : m.objects = s.objects ++ e.schema.objects
  inputs : m.inputs = s.inputs ++ e.schema.inputs
  queryFields : m.queryFields =
    (lastSome? (·.fieldsOf? Schema.queryRoot) e.definitions).getD s.queryFields
  mutationFields : m.mutationFields =
    (lastSome? (·.fieldsOf? Schema.mutationRoot) e.definitions).getD s.mutationFields
  kinds : m.kinds = e.definitions.foldl (fun r d => r.insert d.name d.kind) s.kinds
  kind? : ∀ name, m.kind? name = (lastSome? (·.kindOf? name) e.definitions).or (s.kind? name)

theorem merges_append (ds : List Definition) (e : Document) :
    Merges (Schema.ofDefinitions (ds ++ e.definitions)) (Schema.ofDefinitions ds) e := by
  have hm := Schema.records_ofDefinitions (ds ++ e.definitions)
  have hd := Schema.records_ofDefinitions ds
  have he : e.schema.Records e.definitions := Schema.records_ofDefinitions e.definitions
  refine ⟨?_, ?_, ?_, ?_, ?_, ?_, ?_, fun name => ?_⟩
  · rw [hm.scalars, hd.scalars, he.scalars, List.filterMap_append]
  · rw [hm.enums, hd.enums, he.enums, List.filterMap_append]
  · rw [hm.objects, hd.objects, he.objects, List.filterMap_append]
  · rw [hm.inputs, hd.inputs, he.inputs, List.filterMap_append]
  · rw [hm.queryFields, hd.queryFields, lastSome?_append, Option.getD_or]
  · rw [hm.mutationFields, hd.mutationFields, lastSome?_append, Option.getD_or]
  · rw [hm.kinds, hd.kinds, List.foldl_append]
  · rw [hm.kind?, hd.kind?, lastSome?_append, Option.or_assoc]

/-- A text that follows a closed one adds its definitions to the schema, and its warnings are
those it has alone, further down. -/
theorem schema_followed {d : String} (h : IsClosed d) (s : String) :
    (ofString (d ++ "\n" ++ s)).warnings = (ofString s).warnings.map (Warning.down (below d)) ∧
      Merges (ofString (d ++ "\n" ++ s)).schema (ofString d).schema (ofString s) := by
  have hj := ofString_followed h s
  refine ⟨by rw [hj], ?_⟩
  rw [schema, hj]
  exact merges_append _ _

/-- A text is closed if its last definition has another keyword than an extension. -/
theorem isClosed_of_keyword {d : String} {k : Keyword} (hk : k ≠ .extend)
    (hw : (ofString d).warnings = [])
    (he : (tokenize (Source.ofString d)).tokens.getLast?.any (·.is .braceR) = true)
    (hl : lastKeyword? ⟨0, (tokenize (Source.ofString d)).tokens⟩ = some k) : IsClosed d where
  warnings := hw
  ends := ends_iff.mpr he
  last h := hk (Option.some.inj (hl.symm.trans h))

/-- A type behind an extension is closed. -/
theorem isClosed_extended_type :
    IsClosed "extend type B \x7b x: Int \x7d\ntype Query \x7b\n  type: [Int!]\n\x7d" :=
  @isClosed_of_keyword _ .type (by decide) (by cbv) (by cbv) (by cbv)

/-- A string without an end may follow, and a field without a type. -/
theorem schema_followed_broken :
    let d := "extend type B \x7b x: Int \x7d\ntype Query \x7b\n  type: [Int!]\n\x7d"
    let s := "type Query \x7b\n  field\n\""
    IsClosed d ∧
      (ofString (d ++ "\n" ++ s)).warnings = (ofString s).warnings.map (Warning.down (below d)) ∧
      Merges (ofString (d ++ "\n" ++ s)).schema (ofString d).schema (ofString s) :=
  ⟨isClosed_extended_type, schema_followed isClosed_extended_type _⟩

end Document

end GraphClient
