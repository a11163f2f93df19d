import GraphClient.Proofs.Document.Unclosed

/-!
# Enum values that are named by keywords

A value of an enum may have any name. A value that is named by a keyword may look like a definition
that interrupts its block: where it is the first on its line and the next value, on the line of its
name, is followed by a directive or by a value named `implements`. An enum is read with its values
and without warnings exactly if none of them looks like that (`Document.values_recorded_iff`).
-/

namespace GraphClient

namespace Grammar

/-- A value of an enum with any name. -/
inductive AnyValue : List Token → EnumValueDef → Prop where
  | mk {ds dirs : List Token} {t : Token} {d : Option String} {n : String} : Description ds d →
      t.kind = .name n → Free.Directives (kindsOf dirs) → AnyValue (ds ++ t :: dirs) ⟨n, d⟩

section Value

variable {line : Nat} {ts rest : List Token} {v : EnumValueDef}

theorem AnyValue.ne_nil (h : AnyValue ts v) : ts ≠ [] := by
  cases h
  simp

theorem AnyValue.avoids {ps : List Punctuator} (h : AnyValue ts v) : Avoids ps (ts ++ rest) := by
  obtain ⟨hd, ht, -⟩ := h
  rw [List.append_assoc]
  exact hd.avoids ht

theorem AnyValue.continues {p : Punctuator} (h : AnyValue ts v) :
    Parse.continuesUntil p ⟨line, ts ++ rest⟩ = true := by
  obtain ⟨hd, ht, -⟩ := h
  rw [List.append_assoc]
  exact hd.continues ht

theorem AnyValue.reads (h : AnyValue ts v) (hr : Avoids [.atSign, .parenL] rest) :
    Parse.Reads Parse.enumValue line ts rest v := by
  obtain ⟨hd, ht, hdirs⟩ := h
  exact Parse.enumValue_reads hd ht hdirs hr

end Value

/-- An enum whose values `ms` have any names, between the braces `o` and `c`. -/
inductive AnyEnum (o c : Token) (ms : List Token) : List Token → EnumDef → Prop where
  | mk {ds dirs : List Token} {k t : Token} {d : Option String} {n : String}
      {values : List EnumValueDef} : Description ds d → k.kind = .name "enum" → t.kind = .name n →
      Free.Directives (kindsOf dirs) → o.kind = .punctuator .braceL → Many AnyValue ms values →
      c.kind = .punctuator .braceR →
      AnyEnum o c ms (ds ++ k :: t :: (dirs ++ o :: (ms ++ [c]))) ⟨n, d, values⟩

theorem AnyEnum.ne_nil {o c : Token} {ms ts : List Token} {e : EnumDef} (h : AnyEnum o c ms ts e) :
    ts ≠ [] := by
  cases h
  simp

/-- One of the values `ms` behind a line is taken for a definition, in front of `rest`. -/
def Mistaken (line : Nat) (ms rest : List Token) : Prop :=
  ∃ us vs as bs, ms = us ++ vs ∧ Many AnyValue us as ∧ Many AnyValue vs bs ∧
    Interrupting (lastLine line us) (vs ++ rest)

theorem mem_bodyOpeners {o : Option Token} (h : followsDefinitionName o = true) :
    ∀ u ∈ o, u.kind ∈ bodyOpeners := by
  rintro u rfl
  simp only [followsDefinitionName, Bool.or_eq_true, Token.is_iff, beq_iff_eq,
    Token.name?_eq_some] at h
  simp only [bodyOpeners, List.mem_cons, List.not_mem_nil, or_false]
  tauto

theorem interrupting_iff {line : Nat} {ts : List Token} :
    Interrupting line ts ↔ interruptsBlock ⟨line, ts⟩ = true := by
  refine ⟨Interrupting.interruptsBlock, fun h => ?_⟩
  cases ts with
  | nil => cases h
  | cons first us =>
    rw [interruptsBlock, Bool.and_eq_true, decide_eq_true_eq] at h
    obtain ⟨hline, h⟩ := h
    split at h
    · rename_i k t after hafter
      simp only [Bool.and_eq_true, beq_iff_eq] at h
      obtain ⟨⟨⟨hk, ht⟩, hl⟩, hu⟩ := h
      obtain ⟨keyword, hkey⟩ := Option.isSome_iff_exists.mp hk
      obtain ⟨w, hw, hkw⟩ := Option.bind_eq_some_iff.mp hkey
      obtain ⟨n, hn⟩ := Option.isSome_iff_exists.mp ht
      obtain ⟨ds, d, hd, hts⟩ := exists_description (first :: us)
      have hfirst : ∀ u ∈ (ds ++ k :: t :: after).head?, line < u.line := by
        rw [← hafter, ← hts]
        rintro u ⟨⟩
        exact hline
      rw [hts, hafter]
      exact .mk hd (Token.name?_eq_some.mp hw) (by rw [Plain, hkw]; exact Option.some_ne_none _)
        (Token.name?_eq_some.mp hn) hl (mem_bodyOpeners hu) hfirst
    · cases h

/-- Behind the brace that closes the block nothing matters. -/
theorem mistaken_closed {line : Nat} {ms : List Token} {c : Token} (rest : List Token)
    (hc : c.kind = .punctuator .braceR) : Mistaken line ms (c :: rest) ↔ Mistaken line ms [c] := by
  have same : ∀ line vs, Interrupting line (vs ++ c :: rest) ↔ Interrupting line (vs ++ [c]) := by
    intro line vs
    have hm : Cursor.Mirrors ⟨0, 0⟩ rest ⟨line, vs ++ [c]⟩ ⟨line, vs ++ [c] ++ rest⟩ :=
      ⟨copies_append _ _, fun _ _ => Iff.rfl⟩
    have hi := Parse.interruptsBlock_mirrors hm (.inr ⟨vs, c, rfl, hc⟩)
    rw [List.append_assoc, List.singleton_append] at hi
    rw [interrupting_iff, interrupting_iff, hi]
  simp only [Mistaken, same]

end Grammar

namespace Parse

open Grammar

variable {owner : String} {line : Nat} {o c : Token} {ms rest : List Token}
  {values : List EnumValueDef}

/-- Values are read up to their end, or up to the first that is taken for a definition. -/
theorem values_loop (h : Many AnyValue ms values) (hr : Avoids [.atSign, .parenL] rest) :
    (∀ {ws d bs}, loop continuesBlock (member owner enumValue) ⟨lastLine line ms, rest⟩ =
        ⟨ws, d, .ok bs⟩ →
      loop continuesBlock (member owner enumValue) ⟨line, ms ++ rest⟩ =
        ⟨ws, d, .ok (values ++ bs)⟩) ∨
    ∃ us vs as bs, ms = us ++ vs ∧ Many AnyValue us as ∧ Many AnyValue vs bs ∧
      Interrupting (lastLine line us) (vs ++ rest) ∧
      loop continuesBlock (member owner enumValue) ⟨line, ms ++ rest⟩ =
        ⟨[], ⟨lastLine line us, vs ++ rest⟩, .ok as⟩ := by
  induction h generalizing line with
  | nil => exact .inl fun h => h
  | @cons us vs a as ha hm ih =>
    cases hi : interruptsBlock ⟨line, us ++ vs ++ rest⟩ with
    | true =>
      have hint := interrupting_iff.mpr hi
      exact .inr ⟨[], us ++ vs, [], a :: as, rfl, .nil, .cons ha hm, hint, loop_stop hint.stops⟩
    | false =>
      have hv : Avoids [.atSign, .parenL] (vs ++ rest) := by
        cases hm with
        | nil => exact hr
        | cons hb _ =>
          rw [List.append_assoc]
          exact hb.avoids
      rw [List.append_assoc] at hi ⊢
      have hcont : continuesBlock ⟨line, us ++ (vs ++ rest)⟩ = true := by
        rw [continuesBlock, ha.continues, hi]
        rfl
      have hread : member owner enumValue ⟨line, us ++ (vs ++ rest)⟩ =
          ⟨[], ⟨lastLine line us, vs ++ rest⟩, .ok (some a)⟩ := member_reads (ha.reads hv)
      have hstep := loop_step hcont hread (length_lt_append ha.ne_nil (vs ++ rest))
      rcases @ih (lastLine line us) with hall | ⟨xs, ys, bs, cs, rfl, hx, hy, hint, hloop⟩
      · refine .inl fun {ws d bs} hl => ?_
        rw [lastLine_append] at hl
        rw [hstep, hall hl]
        show Outcome.mk ([] ++ (ws ++ [])) d _ = _
        rw [List.nil_append, List.append_nil]
        rfl
      · rw [← lastLine_append] at hint hloop
        refine .inr ⟨us ++ xs, ys, a :: bs, cs, (List.append_assoc us xs ys).symm, .cons ha hx, hy,
          hint, ?_⟩
        rw [hstep, hloop]
        rfl

/-- A block of values is read whole, unless one of them is taken for a definition. -/
theorem values_block (ho : o.kind = .punctuator .braceL) (h : Many AnyValue ms values)
    (hc : c.kind = .punctuator .braceR) (hm : ¬ Mistaken o.line ms (c :: rest)) :
    block owner enumValue ⟨line, o :: (ms ++ c :: rest)⟩ = ⟨[], ⟨c.line, rest⟩, .ok values⟩ := by
  rcases @values_loop owner o.line ms (c :: rest) _ h (avoids_of_kind hc (by decide)) with
    hall | ⟨us, vs, as, bs, rfl, hu, hv, hint, -⟩
  · have hl := hall (loop_stop (continuesBlock_closing hc))
    rw [List.append_nil] at hl
    exact block_closed ho hl hc
  · exact absurd ⟨us, vs, as, bs, rfl, hu, hv, hint⟩ hm

/-- A block in which a value is taken for a definition is not closed. -/
theorem values_unclosed (ho : o.kind = .punctuator .braceL) (hm : Mistaken o.line ms rest) :
    ∃ d as, ∀ line,
      block owner enumValue ⟨line, o :: (ms ++ rest)⟩ = ⟨[.unclosed owner], d, .ok as⟩ := by
  obtain ⟨us, vs, as, bs, rfl, hu, hv, hint⟩ := hm
  rw [List.append_assoc]
  rcases @values_loop owner o.line us (vs ++ rest) _ hu hint.avoids with
    hall | ⟨xs, ys, cs, ds, rfl, -, -, hint', hl⟩
  · exact ⟨_, _, fun _ => block_interrupted ho (hall (loop_stop hint.stops)) hint⟩
  · exact ⟨_, _, fun _ => block_interrupted ho hl hint'⟩

section AnyEnum

variable {ts : List Token} {e : EnumDef}

/-- An enum is read as its block is. -/
theorem definition_anyEnum {ws : List Warning} {d : Cursor} {as : List EnumValueDef}
    (h : AnyEnum o c ms ts e)
    (hb : ∀ line, block e.name enumValue ⟨line, o :: (ms ++ c :: rest)⟩ = ⟨ws, d, .ok as⟩) :
    definition ⟨line, ts ++ rest⟩ = ⟨ws, d, .ok (some (.enum { e with values := as }), none)⟩ := by
  obtain ⟨hd, hk, ht, hdirs, ho, -, -⟩ := h
  simp only [List.append_assoc, List.cons_append, List.nil_append]
  rw [definition_of_keyword hd hk rfl]
  exact (Reads.followed (name_reads ht)).trans (directives_block hdirs ho hb)

theorem anyEnum_reads (h : AnyEnum o c ms ts e) (hm : ¬ Mistaken o.line ms [c]) :
    definition ⟨line, ts ++ rest⟩ = ⟨[], ⟨c.line, rest⟩, .ok (some (.enum e), none)⟩ := by
  have hb : ∀ line, block e.name enumValue ⟨line, o :: (ms ++ c :: rest)⟩ =
      ⟨[], ⟨c.line, rest⟩, .ok e.values⟩ := by
    obtain ⟨-, -, -, -, ho, hvalues, hc⟩ := h
    exact fun _ => values_block ho hvalues hc (mt (mistaken_closed rest hc).mp hm)
  exact definition_anyEnum h hb

theorem anyEnum_unclosed (h : AnyEnum o c ms ts e) (hm : Mistaken o.line ms [c]) :
    ∃ d as, definition ⟨line, ts ++ rest⟩ =
      ⟨[.unclosed e.name], d, .ok (some (.enum { e with values := as }), none)⟩ := by
  have hb : ∃ d as, ∀ line, block e.name enumValue ⟨line, o :: (ms ++ c :: rest)⟩ =
      ⟨[.unclosed e.name], d, .ok as⟩ := by
    obtain ⟨-, -, -, -, ho, -, hc⟩ := h
    exact values_unclosed ho ((mistaken_closed rest hc).mpr hm)
  obtain ⟨d, as, hb⟩ := hb
  exact ⟨d, as, definition_anyEnum h hb⟩

end AnyEnum

end Parse

namespace Document

open Grammar Parse

/-- An enum is recorded with its values, in their order and without warnings, exactly if none of
them is taken for a definition, in the document of its own and in front of any tokens. -/
theorem values_recorded_iff {o c : Token} {ms ts : List Token} {e : EnumDef}
    (h : AnyEnum o c ms ts e) :
    (ofTokens ts = ⟨[.enum e], []⟩ ↔ ¬ Mistaken o.line ms [c]) ∧
      ∀ line rest, definition ⟨line, ts ++ rest⟩ =
        ⟨[], ⟨c.line, rest⟩, .ok (some (.enum e), none)⟩ ↔ ¬ Mistaken o.line ms [c] := by
  refine ⟨⟨fun hdoc hm => ?_, fun hm => ?_⟩, fun line rest =>
    ⟨fun hdef hm => ?_, fun hm => anyEnum_reads h hm⟩⟩
  · obtain ⟨d, as, hdef⟩ := @anyEnum_unclosed 0 o c ms [] ts e h hm
    obtain ⟨ws, c', ds, hds⟩ := answers_definitions ⟨0, ts⟩
    rw [ofTokens_eq hds] at hdoc
    obtain rfl : ws = [] := congrArg Document.warnings hdoc
    obtain ⟨c'', a, bs, hentry, -⟩ := definitions_cons hds h.ne_nil
    rw [List.append_nil] at hdef
    rw [entry_ok hdef] at hentry
    cases hentry
  · have hentry := entry_ok (@anyEnum_reads 0 o c ms [] ts e h hm)
    rw [List.append_nil] at hentry
    refine @ofTokens_eq _ [] ⟨c.line, []⟩ _ ?_
    rw [definitions_step hentry (List.length_pos_of_ne_nil h.ne_nil), definitions_stop rfl]
    rfl
  · obtain ⟨d, as, hclosed⟩ := @anyEnum_unclosed line o c ms rest ts e h hm
    rw [hclosed] at hdef
    cases hdef

/-- Keywords that each stand on a line of their own, or in front of a directive, are values. -/
theorem values_recorded_iff_kind :
    let o : Token := ⟨⟨.punctuator .braceL, ⟨1, 1⟩⟩, [], []⟩
    let c : Token := ⟨⟨.punctuator .braceR, ⟨5, 1⟩⟩, [], []⟩
    let ms := tokensOn 2 [.name "type"] ++ (tokensOn 3 [.name "input"] ++
      (tokensOn 4 [.name "scalar", .punctuator .atSign, .name "deprecated"] ++ []))
    let e : EnumDef := ⟨"Kind", none, [⟨"type", none⟩, ⟨"input", none⟩, ⟨"scalar", none⟩]⟩
    let ts := tokensOn 1 [.name "enum", .name "Kind"] ++ o :: (ms ++ [c])
    AnyEnum o c ms ts e ∧ ofTokens ts = ⟨[.enum e], []⟩ ∧ ¬ Mistaken o.line ms [c] := by
  intro o c ms e ts
  have hms : Many AnyValue ms e.values :=
    .cons (@AnyValue.mk [] [] _ none _ .none rfl .nil)
      (.cons (@AnyValue.mk [] [] _ none _ .none rfl .nil)
        (.cons (@AnyValue.mk [] (tokensOn 4 [.punctuator .atSign, .name "deprecated"]) _ none _
          .none rfl (.bare _ .nil)) .nil))
  have h : AnyEnum o c ms ts e :=
    @AnyEnum.mk o c ms [] [] _ _ none _ _ .none rfl rfl .nil rfl hms rfl
  have hdoc : ofTokens ts = ⟨[.enum e], []⟩ := by cbv
  exact ⟨h, hdoc, (values_recorded_iff h).1.mp hdoc⟩

/-- A keyword that begins a line and a value with a directive behind it are taken for a type. -/
theorem keyword_value_mistaken :
    let s := "enum E \x7b\n  A\n  type input @deprecated\n\x7d"
    let e : EnumDef := ⟨"E", none, [⟨"A", none⟩, ⟨"type", none⟩, ⟨"input", none⟩]⟩
    (∃ o c ms, AnyEnum o c ms (tokenize (Source.ofString s)).tokens e) ∧ Plain e.name ∧
      (ofString s).definitions = [.enum ⟨"E", none, [⟨"A", none⟩]⟩, .object ⟨"input", none, []⟩] ∧
      ofString s ≠ ⟨[.enum e], []⟩ := by
  intro s e
  have hkinds : kindsOf (tokenize (Source.ofString s)).tokens = [.name "enum", .name "E",
      .punctuator .braceL, .name "A", .name "type", .name "input", .punctuator .atSign,
      .name "deprecated", .punctuator .braceR] := by cbv
  have hdefs : (ofString s).definitions =
      [.enum ⟨"E", none, [⟨"A", none⟩]⟩, .object ⟨"input", none, []⟩] := by cbv
  refine ⟨?_, rfl, hdefs, fun h => ?_⟩
  · generalize (tokenize (Source.ofString s)).tokens = ts at hkinds
    simp only [kindsOf, List.map_eq_cons_iff, List.map_eq_nil_iff] at hkinds
    obtain ⟨k, _, rfl, hk, t, _, rfl, ht, o, _, rfl, ho, a, _, rfl, ha, b, _, rfl, hb, i, _, rfl,
      hi, at', _, rfl, hat, d, _, rfl, hd, c, _, rfl, hc, rfl⟩ := hkinds
    have hdirs : Free.Directives (kindsOf [at', d]) := by
      simp only [kindsOf, List.map_cons, List.map_nil, hat, hd]
      exact .bare _ .nil
    have hms : Many AnyValue ([a] ++ ([b] ++ ([i, at', d] ++ []))) e.values :=
      .cons (@AnyValue.mk [] [] _ none _ .none ha .nil)
        (.cons (@AnyValue.mk [] [] _ none _ .none hb .nil)
          (.cons (@AnyValue.mk [] [at', d] _ none _ .none hi hdirs) .nil))
    exact ⟨o, c, _, @AnyEnum.mk o c _ [] [] _ _ none _ _ .none hk ht .nil ho hms hc⟩
  · rw [h] at hdefs
    exact absurd (congrArg List.length hdefs) (by simp)

end Document

end GraphClient
