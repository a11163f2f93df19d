import Mathlib
import GraphClient.Proofs.Document.Accepts
import GraphClient.Proofs.Document.Closing
import GraphClient.Proofs.Schema.WellFormed
import GraphClient.Proofs.Token.Excerpts
import GraphClient.Proofs.Token.Spells

/-!
# Default values are read again

A default value is kept as the text of its tokens, from the first to the last, with all that is
ignored between them. Whatever the document, this text is tokenised without faults, its tokens
are a value and nothing else, and it is the default value of any input field that it is written
to (`defaults_reparse`). How a value is read depends on the kinds of its tokens only, not on
where it stands nor on what follows (`Takes.reads`), and its tokens are an excerpt of those of the
document.
-/

namespace GraphClient

/-- The arguments or input fields of a definition. -/
def Definition.inputValues : Definition → List InputValueDef
  | object d => d.fields.flatMap (·.arguments)
  | input d => d.fields
  | scalar _ | enum _ | interface _ | union _ => []

/-- The input fields of a schema and the arguments of its fields. -/
def Schema.inputValues (s : Schema) : List InputValueDef :=
  (s.objects.flatMap (·.fields) ++ (s.queryFields ++ s.mutationFields)).flatMap (·.arguments) ++
    s.inputs.flatMap (·.fields)

/-- A text that is a default value wherever it is written to. -/
structure Reparses (text : String) : Prop where
  faultless : (lex (Source.ofString text)).fault = none
  /-- Nothing that is ignored stands before the first token or behind the last. -/
  bare : bare (lex (Source.ofString text)).tokens = Source.ofString text
  value (line : Nat) : Parse.Reads Parse.anyValue line (lex (Source.ofString text)).tokens [] ()
  field : Document.ofString ("input X \x7b f: String = " ++ text ++ " \x7d") =
    ⟨[.input ⟨"X", none, [⟨"f", none, .named "String", some text⟩]⟩], []⟩

namespace Parse

/-! ## Values by their kinds -/

/-- In front of `rest`, behind `line`, the tokens `vs` are taken as a value. -/
structure Takes (line : Nat) (vs rest : List Token) : Prop where
  result : (anyValue ⟨line, vs ++ rest⟩).result = .ok ()
  rest : (anyValue ⟨line, vs ++ rest⟩).cursor.rest = rest

section Kinds

variable {opening closing : Punctuator} {depth line line' : Nat} {ts vs us after rest : List Token}

theorem not_cons_suffix {t : Token} : ¬ t :: ts <:+ ts := fun h => by
  have hl := h.length_le
  rw [List.length_cons] at hl
  omega

theorem leaveGroup_reads_again (hk : kindsOf us = kindsOf vs)
    (h : (leaveGroup opening closing depth line (vs ++ after)).result = .ok ())
    (hr : (leaveGroup opening closing depth line (vs ++ after)).cursor.rest = after) :
    leaveGroup opening closing depth line' (us ++ rest) =
      ⟨[], ⟨lastLine line' us, rest⟩, .ok ()⟩ := by
  induction vs generalizing depth line line' us with
  | nil =>
    -- a group takes its closing bracket at least
    cases after with
    | nil => cases h
    | cons t ts =>
      have hs : (leaveGroup opening closing depth line ([] ++ t :: ts)).cursor.rest <:+ ts := by
        rw [List.nil_append, leaveGroup]
        repeat' split
        all_goals first
          | exact leaveGroup_passes.1.suffix
          | exact List.suffix_refl ts
      rw [hr] at hs
      exact absurd hs not_cons_suffix
  | cons t vs ih =>
    obtain ⟨u, us, rfl, hu, hus⟩ := kindsOf_eq_cons.mp hk
    have his : ∀ p, u.is p = t.is p := fun p => by rw [Token.is, Token.is, hu]
    rw [List.cons_append, leaveGroup] at h hr ⊢
    rw [his, his, lastLine_cons]
    split at h
    · rename_i ho
      rw [if_pos ho] at hr ⊢
      exact ih hus h hr
    · rename_i ho
      rw [if_neg ho] at hr ⊢
      split at h
      · rename_i hc
        rw [if_pos hc] at hr ⊢
        split at h
        · rename_i hd
          rw [if_pos hd] at hr ⊢
          have hvs : vs = [] := List.append_left_eq_self.mp hr
          subst hvs
          rw [kindsOf_eq_nil.mp hus]
          rfl
        · rename_i hd
          rw [if_neg hd] at hr ⊢
          exact ih hus h hr
      · rename_i hc
        rw [if_neg hc] at hr ⊢
        exact ih hus h hr

theorem group_reads_again {t u : Token} (ht : t.kind = .punctuator opening)
    (hu : u.kind = t.kind) (hk : kindsOf us = kindsOf vs)
    (h : (group opening closing ⟨line, t :: (vs ++ after)⟩).result = .ok ())
    (hr : (group opening closing ⟨line, t :: (vs ++ after)⟩).cursor.rest = after) :
    Reads (group opening closing) line' (u :: us) rest () := by
  have hkinds : kindsOf (u :: us) = kindsOf (t :: vs) := List.cons_eq_cons.mpr ⟨hu, hk⟩
  rw [group_of_nextIs (nextIs_cons ht), ← List.cons_append] at h hr
  exact (group_of_nextIs (nextIs_cons (hu.trans ht))).trans (leaveGroup_reads_again hkinds h hr)

/-- A variable is a dollar sign and a name. -/
theorem variable_reads_again {u : Token} (hk : kindsOf us = kindsOf vs)
    (h : ((do let _ ← name) ⟨line, vs ++ after⟩ : Outcome Unit).result = .ok ())
    (hr : ((do let _ ← name) ⟨line, vs ++ after⟩ : Outcome Unit).cursor.rest = after) :
    Reads (do advance; let _ ← name) line' (u :: us) rest () := by
  obtain ⟨n, hn⟩ : ∃ n, (vs ++ after).head?.bind Token.name? = some n := by
    cases hn : (vs ++ after).head?.bind Token.name? with
    | some n => exact ⟨n, rfl⟩
    | none =>
      rw [bind_apply, name_of_none hn] at h
      cases h
  rw [bind_apply, name_of_some hn] at hr
  cases vs with
  | nil =>
    obtain ⟨t, ht, -⟩ := Option.bind_eq_some_iff.mp hn
    obtain ⟨ts, rfl⟩ := List.head?_eq_some_iff.mp ht
    exact absurd (show t :: ts <:+ ts from hr ▸ List.suffix_refl _) not_cons_suffix
  | cons t vs =>
    obtain ⟨w, us, rfl, hw, hus⟩ := kindsOf_eq_cons.mp hk
    have hvs : vs = [] := List.append_left_eq_self.mp hr
    subst hvs
    obtain rfl := kindsOf_eq_nil.mp hus
    exact Reads.bind advance_reads
      (Reads.last (name_reads (hw.trans (Token.name?_eq_some.mp hn))) Reads.pure)

theorem Takes.ne_nil (h : Takes line vs after) : vs ≠ [] := by
  rintro rfl
  cases after with
  | nil => cases h.result
  | cons t ts =>
    have hs := anyValue_suffix h.result
    rw [← List.nil_append (t :: ts), h.rest] at hs
    exact not_cons_suffix hs

/-- Tokens of the same kinds are a value in front of anything. -/
theorem Takes.reads (h : Takes line vs after) (hk : kindsOf us = kindsOf vs) :
    Reads anyValue line' us rest () := by
  obtain ⟨t, vs, rfl⟩ := List.exists_cons_of_ne_nil h.ne_nil
  obtain ⟨u, us, rfl, hu, hus⟩ := kindsOf_eq_cons.mp hk
  replace hu : u.kind = t.kind := hu
  obtain ⟨h, hr⟩ := h
  have hsingle : vs ++ after = after → us = [] := fun e => by
    rw [List.append_left_eq_self.mp e] at hus
    exact kindsOf_eq_nil.mp hus
  rw [List.cons_append, anyValue, peek_bind, List.head?_cons] at h hr
  apply Reads.after (@peek_reads line' (u :: us ++ rest))
  rw [List.cons_append, List.head?_cons]
  cases htk : t.kind with
  | punctuator p =>
    simp only [hu, htk] at h hr ⊢
    cases p with
    | bracketL => exact group_reads_again htk hu hus h hr
    | braceL => exact group_reads_again htk hu hus h hr
    | dollar => exact variable_reads_again hus h hr
    | _ => cases h
  | _ =>
    simp only [hu, htk] at hr ⊢
    obtain rfl := hsingle hr
    exact advance_reads

end Kinds

/-! ## Defaults are values of the document -/

section Document

variable {ts : List Token}

/-- The text of a value among some tokens. -/
def ValueText (ts : List Token) (text : String) : Prop :=
  ∃ line vs rest, vs ++ rest <:+ ts ∧ Takes line vs rest ∧ text = spanText vs

/-- The default value, if there is one, is the text of a value among some tokens. -/
def DefaultWithin (ts : List Token) (v : InputValueDef) : Prop :=
  ∀ text ∈ v.defaultValue, ValueText ts text

theorem inherits_suffix (ts : List Token) : Inherits (· <:+ ts) := fun _ _ hs h => hs.trans h

theorem gives_defaultText :
    Gives (· <:+ ts) defaultText fun o => ∀ text ∈ o, ValueText ts text := by
  rintro ⟨line, us⟩ hus o ho
  rcases hv : anyValue ⟨line, us⟩ with ⟨ws, d, i | _⟩
  · rw [defaultText] at ho
    split at ho
    · cases ho
    · rw [hv] at ho
      cases ho
  · rw [defaultText] at ho
    split at ho
    · cases ho
    rw [hv] at ho
    cases ho
    rintro text ⟨⟩
    have hs : d.rest <:+ us := by
      have h := (local_anyValue ⟨line, us⟩).passes.suffix
      rwa [hv] at h
    obtain ⟨vs, rfl⟩ := hs
    refine ⟨line, vs, d.rest, hus, ⟨by rw [hv], by rw [hv]⟩, ?_⟩
    rw [List.length_append, Nat.add_sub_cancel, List.take_left]

theorem gives_defaultValue :
    Gives (· <:+ ts) defaultValue fun o => ∀ text ∈ o, ValueText ts text := by
  rw [defaultValue_eq]
  refine Gives.after (inherits_suffix ts) (local_accept _) fun b => ?_
  cases b
  · exact gives_pure nofun
  · exact gives_defaultText

theorem gives_anything {α : Type} {P : List Token → Prop} (p : Parse α) :
    Gives P p fun _ => True := fun _ _ _ _ => trivial

theorem gives_inputValue (element : String → String) :
    Gives (· <:+ ts) (inputValue element) (DefaultWithin ts) := by
  have hP := inherits_suffix ts
  refine Gives.after hP local_description fun _ => Gives.after hP local_name fun _ => ?_
  refine Gives.after hP (local_elementType _) fun _ => ?_
  refine Gives.bind hP local_defaultValue gives_defaultValue fun _ hv => ?_
  exact Gives.after hP local_directives fun _ => gives_pure hv

theorem gives_field (owner : String) :
    Gives (· <:+ ts) (field owner) fun f => ∀ a ∈ f.arguments, DefaultWithin ts a := by
  have hP := inherits_suffix ts
  refine Gives.after hP local_description fun _ => Gives.after hP local_name fun _ => ?_
  refine Gives.bind hP (local_arguments _) (gives_arguments hP gives_inputValue _) fun _ ha => ?_
  refine Gives.after hP (local_elementType _) fun _ => ?_
  exact Gives.after hP local_directives fun _ => gives_pure ha

theorem composes_defaults : Composes (fun _ => True) (fun _ => True) (fun _ => True)
    (fun f => ∀ a ∈ f.arguments, DefaultWithin ts a) (DefaultWithin ts)
    fun d => ∀ v ∈ d.inputValues, DefaultWithin ts v where
  scalar _ _ := nofun
  enum _ _ _ := nofun
  object _ _ hfields v hv := by
    obtain ⟨f, hf, hv⟩ := List.mem_flatMap.mp hv
    exact hfields f hf v hv
  input _ _ hfields := hfields
  interface _ := nofun
  union _ := nofun

/-- The default values of a document are values among its tokens. -/
theorem ofTokens_defaults (ts : List Token) : ∀ d ∈ (Document.ofTokens ts).definitions,
    ∀ v ∈ d.inputValues, DefaultWithin ts v :=
  Document.ofTokens_gives (inherits_suffix ts)
    (gives_definition (inherits_suffix ts) composes_defaults (gives_anything _) (gives_anything _)
      (gives_anything _) gives_field gives_inputValue) (List.suffix_refl ts)

end Document

/-! ## An input field with a value -/

section Written

variable {line : Nat} {vs : List Token}

theorem assigned_reads {f colon type equals : Token} {owner : String}
    (hf : f.kind = .name "f") (hcolon : colon.kind = .punctuator .colon)
    (htype : type.kind = .name "String") (hequals : equals.kind = .punctuator .equals)
    (hne : vs ≠ []) {rest : List Token} (hr : Avoids [.atSign, .parenL] rest)
    (hv : Reads anyValue equals.line vs rest ()) :
    Reads (inputField owner) line (f :: colon :: type :: equals :: vs) rest
      ⟨"f", none, .named "String", some (spanText vs)⟩ := by
  have hdescribed : Reads description line [] (f :: colon :: type :: equals :: vs ++ rest) none :=
    describes_name .none hf
  have htyped : Reads ( typeAnnotation (owner ++ "." ++ "f")) f.line [colon, type]
      (equals :: vs ++ rest) (.named "String") :=
    typeAnnotation_reads hcolon trivial (List.singleton_inj.mpr htype)
      (avoids_of_kind hequals (by decide))
  refine Reads.after hdescribed (Reads.bind (name_reads hf) ?_)
  refine @Reads.bind _ _ _ [colon, type] _ _ _ _ _ _ htyped ?_
  refine Reads.last (equals_reads hequals hne hv) ?_
  exact Reads.after (directives_reads .nil hr) Reads.pure

theorem input_of_value {us vs : List Token} {c : Token}
    (hkinds : kindsOf us = [.name "input", .name "X", .punctuator .braceL, .name "f",
      .punctuator .colon, .name "String", .punctuator .equals])
    (hc : c.kind = .punctuator .braceR) (hne : vs ≠ [])
    (hv : ∀ line, Reads anyValue line vs [c] ()) :
    GraphClient.Document.ofTokens (us ++ (vs ++ [c])) =
      ⟨[.input ⟨"X", none, [⟨"f", none, .named "String", some (spanText vs)⟩]⟩], []⟩ := by
  obtain ⟨k, us, rfl, hk, hus⟩ := kindsOf_eq_cons.mp hkinds
  obtain ⟨x, us, rfl, hx, hus⟩ := kindsOf_eq_cons.mp hus
  obtain ⟨o, us, rfl, ho, hus⟩ := kindsOf_eq_cons.mp hus
  obtain ⟨f, us, rfl, hf, hus⟩ := kindsOf_eq_cons.mp hus
  obtain ⟨colon, us, rfl, hcolon, hus⟩ := kindsOf_eq_cons.mp hus
  obtain ⟨type, us, rfl, htype, hus⟩ := kindsOf_eq_cons.mp hus
  obtain ⟨equals, rfl, hequals⟩ := kindsOf_eq_singleton.mp hus
  have hfield : Reads (inputField "X") o.line (f :: colon :: type :: equals :: vs) [c] _ :=
    assigned_reads hf hcolon htype hequals hne (avoids_of_kind hc (by decide)) (hv _)
  have hnext : colon.isName = false := by simp [Token.isName, Token.name?, hcolon]
  have hdef : Reads definition 0 (k :: x :: o :: (f :: colon :: type :: equals :: vs ++ [c])) []
      (some (.input ⟨"X", none, [⟨"f", none, .named "String", some (spanText vs)⟩]⟩), none) := by
    refine @definition_reads _ _ _ none [] k _ _ _ .none hk rfl ?_
    refine @Reads.bind _ _ _ [x] _ _ _ _ _ _ (name_reads hx) ?_
    apply Reads.after (directives_reads .nil (avoids_of_kind ho (by decide)))
    refine Reads.last (block_reads_one ho ?_ (List.cons_ne_nil _ _) hfield hc) Reads.pure
    exact continuesBlock_of_next .none hf hnext
  exact ofTokens_single (List.cons_ne_nil _ _) hdef

end Written

end Parse

namespace Document

open Parse

theorem front_spells : Spells Anything (Source.ofString "input X \x7b f: String = ")
    (OfKinds [.name "input", .name "X", .punctuator .braceL, .name "f", .punctuator .colon,
      .name "String", .punctuator .equals]) := by
  have hblank : ∀ {b rest : Source}, Delimits (.whole ' ' :: b ++ rest) := delimits_cons (by decide)
  have hinput : IsName "input" ∧ IsName "X" ∧ IsName "f" ∧ IsName "String" := by decide
  refine .cons_name hinput.1 (.cons_blank (.inl rfl) ?_) fun _ _ => hblank
  refine .cons_name hinput.2.1 (.cons_blank (.inl rfl) (.cons_punctuator rfl ?_)) fun _ _ => hblank
  refine .cons_blank (.inl rfl) (.cons_name hinput.2.2.1 (.cons_punctuator rfl ?_) fun _ _ =>
    delimits_cons (by decide))
  refine .cons_blank (.inl rfl) (.cons_name hinput.2.2.2 (.cons_blank (.inl rfl) ?_) fun _ _ =>
    hblank)
  exact .cons_punctuator rfl (.cons_blank (.inl rfl) .nothing)

/-- The text of a value among the tokens of a text is a default value wherever it is written. -/
theorem valueText_reparses {position : Nat} {place : Place} {cells : Source} {text : String}
    (h : ValueText (lexFrom [] position place cells).tokens text) : Reparses text := by
  obtain ⟨line, vs, after, hs, hv, rfl⟩ := h
  have hne := hv.ne_nil
  have htext : Source.ofString (spanText vs) = bare vs :=
    ofString_spanText ((List.prefix_append vs after).isInfix.trans hs.isInfix)
  obtain ⟨hfault, hbare, hkinds⟩ := lex_excerpt hs hne
  refine ⟨htext ▸ hfault, htext ▸ hbare, fun line => htext ▸ hv.reads hkinds, ?_⟩
  -- the text is scanned behind what is written before it and in front of what is written behind
  have hdelimits : Delimits (Source.ofString " \x7d" ++ []) := delimits_cons (by decide)
  obtain ⟨s, s', hscan⟩ := scans_excerpt hs hne hdelimits
  obtain ⟨fs, u, hfs, -, hfk⟩ :=
    front_spells (bare vs ++ (Source.ofString " \x7d" ++ [])) ⟨[], Place.start⟩ trivial
  obtain ⟨us, v, hus, huk, hub, -⟩ := hscan.move u
  obtain ⟨bs, w, hbs, -, hbk⟩ := Spells.closingBrace [] v trivial
  obtain ⟨c, rfl, hc⟩ := kindsOf_eq_singleton.mp hbk
  have hall : Scans [] ⟨[], Place.start⟩
      (Source.ofString ("input X \x7b f: String = " ++ spanText vs ++ " \x7d"))
      (fs ++ (us ++ [c])) w := by
    rw [ofString_append, ofString_append, htext, List.append_assoc]
    exact Scans.append (by rwa [List.append_assoc]) (hus.append hbs)
  have hspan : spanText us = spanText vs := by rw [spanText_eq, hub, ← spanText_eq]
  have hune : us ≠ [] := fun e => by
    rw [e] at huk
    exact hne (List.map_eq_nil_iff.mp huk.symm)
  rw [ofString_of_scans hall, input_of_value hfk hc hune fun _ => hv.reads huk, hspan]

/-- The default values of a schema are those of definitions that it is made of. -/
theorem mem_inputValues {s : Schema} {ds : List Definition} {v : InputValueDef}
    (h : s.Records ds) (hv : v ∈ s.inputValues) : ∃ d ∈ ds, v ∈ d.inputValues := by
  rcases List.mem_append.mp hv with hv | hv
  · obtain ⟨f, hf, hv⟩ := List.mem_flatMap.mp hv
    obtain ⟨o, ho, hf⟩ : ∃ o, .object o ∈ ds ∧ f ∈ o.fields := by
      simp only [List.mem_append, List.mem_flatMap] at hf
      rcases hf with ⟨o, ho, hf⟩ | hf | hf
      · exact ⟨o, (h.lists_iff (d := .object o).mp ho).1, hf⟩
      · exact Schema.object_of_root (h.queryFields ▸ hf)
      · exact Schema.object_of_root (h.mutationFields ▸ hf)
    exact ⟨_, ho, List.mem_flatMap.mpr ⟨f, hf, hv⟩⟩
  · obtain ⟨i, hi, hv⟩ := List.mem_flatMap.mp hv
    exact ⟨_, (h.lists_iff (d := .input i).mp hi).1, hv⟩

/-- Whatever the text, the default values that are read from it are read again, and verbatim. -/
theorem defaults_reparse (s : String) {v : InputValueDef} {text : String}
    (hv : v ∈ (ofString s).schema.inputValues) (ht : v.defaultValue = some text) :
    Reparses text := by
  obtain ⟨d, hd, hv⟩ := mem_inputValues (Schema.records_ofDefinitions _) hv
  have htokens := ofTokens_defaults _ d hd v hv text ht
  rw [tokens_tokenize] at htokens
  exact valueText_reparses htokens

/-- A comment and a line break within a default value are kept, in a document that is broken. -/
theorem defaults_reparse_commented :
    let s := "input Range \x7b limits: [Int] = [1, # at least\n  2] \x7d ? type"
    let v : InputValueDef := ⟨"limits", none, .list (.named "Int"), some "[1, # at least\n  2]"⟩
    v ∈ (ofString s).schema.inputValues ∧ v.defaultValue = some "[1, # at least\n  2]" ∧
      Reparses "[1, # at least\n  2]" := by
  intro s v
  have hall : (ofString s).schema.inputValues = [v] := by cbv
  have hv : v ∈ (ofString s).schema.inputValues := by rw [hall]; exact List.mem_singleton_self v
  exact ⟨hv, rfl, defaults_reparse s hv rfl⟩

end Document

end GraphClient
