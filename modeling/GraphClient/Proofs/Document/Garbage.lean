import GraphClient.Proofs.Document.Followed
import GraphClient.Proofs.Document.Recovery

/-!
# Tokens where a definition is expected

Tokens that are no definition raise one issue where they begin, and reading goes on at the next
definition (`Document.ofTokens_stray`). Tokens with properly nested brackets are passed over as
long as no definition starts outside of them (`Grammar.Unstarted`), so garbage between two texts
costs one warning (`Document.garbage_costs_one_warning`). The bracket at which an issue is raised is
not counted: a group in brackets is entered, and the definitions that start in it outside of further
brackets are read (`Document.group_entered`).
-/

namespace GraphClient

namespace Grammar

/-- Kinds with properly nested brackets and no keyword outside of them. -/
inductive Keyless : List TokenKind → Prop where
  | nil : Keyless []
  | token {k : TokenKind} {ks : List TokenKind} : k.isBracket = false →
      (∀ n, k = .name n → Plain n) → Keyless ks → Keyless (k :: ks)
  | group {o c : Punctuator} {ks ls : List TokenKind} : o.Encloses c → Balanced ks → Keyless ls →
      Keyless (.punctuator o :: (ks ++ .punctuator c :: ls))

/-- Tokens that neither are a definition nor hold one outside of brackets, nor describe what
follows them. -/
structure Garbage (ts : List Token) : Prop where
  keyless : Keyless (kindsOf ts)
  ne_nil : ts ≠ []
  first : ∀ t ∈ ts.head?, ∀ o c, o.Encloses c → t.kind ≠ .punctuator o
  last : ∀ t ∈ ts.getLast?, t.isString = false

section Keyless

variable {ts rest : List Token}

theorem Keyless.head (h : Keyless (kindsOf ts)) : ∀ t ∈ ts.head?, t.keyword? = none := by
  intro t ht
  obtain ⟨us, rfl⟩ := List.head?_eq_some_iff.mp ht
  generalize hk : kindsOf (t :: us) = ks at h
  cases h with
  | nil => cases hk
  | token _ hn _ =>
    cases hk
    exact keyword?_of_plain hn
  | group ho _ _ => exact (Token.not_string_of_punctuator (List.cons.inj hk).1).2

/-- A description starts no definition if it describes no keyword. -/
theorem startsDefinition_described {t : Token} (hk : t.keyword? = none)
    (hs : t.isString = true → ts ≠ [] ∧ ∀ u ∈ ts.head?, u.keyword? = none) :
    startsDefinition (t :: (ts ++ rest)) = false := by
  cases h : t.isString with
  | false => exact startsDefinition_eq_false h hk
  | true =>
    obtain ⟨hne, hu⟩ := hs h
    obtain ⟨u, us, rfl⟩ := List.exists_cons_of_ne_nil hne
    have hafter : afterDescription (t :: (u :: us ++ rest)) = u :: (us ++ rest) := if_pos h
    rw [startsDefinition, hafter]
    cases us ++ rest with
    | nil => rfl
    | cons v vs => simp [hu u rfl]

/-- Nothing starts among tokens without a keyword, unless they end with a description. -/
theorem Keyless.unstarted (h : Keyless (kindsOf ts)) (hl : ∀ t ∈ ts.getLast?, t.isString = false) :
    Unstarted rest ts := by
  generalize hk : kindsOf ts = ks at h
  induction h generalizing ts with
  | nil =>
    rw [kindsOf_eq_nil.mp hk]
    exact .nil
  | @token k ks hb hn hks ih =>
    obtain ⟨t, us, rfl, rfl, rfl⟩ := kindsOf_eq_cons.mp hk
    have hus : us ≠ [] → us.getLast? = (t :: us).getLast? := fun hne => by
      rw [List.getLast?_cons_of_ne_nil hne]
    refine .token hb (startsDefinition_described (keyword?_of_plain hn) fun hs => ⟨?_, hks.head⟩)
      (ih (fun u hu => ?_) rfl)
    · rintro rfl
      rw [hl t rfl] at hs
      cases hs
    · exact hl u (hus (by rintro rfl; cases hu) ▸ hu)
  | group ho hb _ ih =>
    obtain ⟨t, us, rfl, ht, hus⟩ := kindsOf_eq_cons.mp hk
    obtain ⟨vs, ws, rfl, rfl, hws⟩ := kindsOf_eq_append.mp hus
    obtain ⟨u, xs, rfl, hu, hxs⟩ := kindsOf_eq_cons.mp hws
    refine .group ho ht hb hu (ih (fun v hv => hl v ?_) hxs)
    have hne : xs ≠ [] := by
      rintro rfl
      cases hv
    rw [← List.cons_append, List.getLast?_append_of_ne_nil _ (by simp),
      List.getLast?_cons_of_ne_nil hne]
    exact hv

/-- Garbage begins with a token that neither opens a group nor is a keyword. -/
theorem Garbage.cons (h : Garbage ts) : ∃ t us, ts = t :: us ∧ t.keyword? = none ∧
    Keyless (kindsOf us) ∧ (∀ u ∈ us.getLast?, u.isString = false) ∧
    (t.isString = true → us ≠ []) := by
  obtain ⟨hk, hne, hf, hl⟩ := h
  obtain ⟨t, us, rfl⟩ := List.exists_cons_of_ne_nil hne
  have hus : Keyless (kindsOf us) := by
    generalize hks : kindsOf (t :: us) = ks at hk
    cases hk with
    | nil => cases hks
    | token _ _ hks' =>
      cases hks
      exact hks'
    | group ho _ _ => exact absurd (List.cons.inj hks).1 (hf t rfl _ _ ho)
  refine ⟨t, us, rfl, hk.head t rfl, hus, fun u hu => hl u ?_, ?_⟩
  · rw [List.getLast?_cons_of_ne_nil (by rintro rfl; cases hu)]
    exact hu
  · rintro hs rfl
    rw [hl t rfl] at hs
    cases hs

end Keyless

/-- Where reading goes on among tokens and the closing bracket behind them, whose opening bracket is
not counted: at the first definition outside of further brackets, or else behind the group. -/
inductive Entered (c : Token) : List Token → List Token → Prop where
  | behind {ts : List Token} : Unstarted [c] ts → Entered c ts []
  | inside {ts us : List Token} : Unstarted (us ++ [c]) ts → startsDefinition (us ++ [c]) = true →
      Entered c (ts ++ us) (us ++ [c])

theorem unstarted_or_starts {ts : List Token} (rest : List Token) (h : Balanced (kindsOf ts)) :
    Unstarted rest ts ∨ ∃ us vs, ts = us ++ vs ∧ Unstarted (vs ++ rest) us ∧
      startsDefinition (vs ++ rest) = true := by
  generalize hk : kindsOf ts = ks at h
  induction h generalizing ts with
  | nil =>
    rw [kindsOf_eq_nil.mp hk]
    exact .inl .nil
  | token hb _ ih =>
    obtain ⟨t, us, rfl, rfl, hus⟩ := kindsOf_eq_cons.mp hk
    cases hs : startsDefinition (t :: (us ++ rest)) with
    | true => exact .inr ⟨[], t :: us, rfl, .nil, hs⟩
    | false =>
      rcases ih hus with h | ⟨vs, ws, rfl, hv, hw⟩
      · exact .inl (.token hb hs h)
      · exact .inr ⟨t :: vs, ws, rfl, .token hb (by rwa [List.append_assoc] at hs) hv, hw⟩
  | group ho hb _ _ ih =>
    obtain ⟨t, us, rfl, ht, hus⟩ := kindsOf_eq_cons.mp hk
    obtain ⟨vs, ws, rfl, rfl, hws⟩ := kindsOf_eq_append.mp hus
    obtain ⟨u, xs, rfl, hu, hxs⟩ := kindsOf_eq_cons.mp hws
    rcases ih hxs with h | ⟨ys, zs, rfl, hy, hz⟩
    · exact .inl (.group ho ht hb hu h)
    · refine .inr ⟨t :: (vs ++ u :: ys), zs, by simp, .group ho ht hb hu hy, hz⟩

end Grammar

open Grammar

/-- Reading goes on in a group whose opening bracket is passed. -/
theorem Cursor.seekDefinition_entered {p q : Punctuator} {c : Token} {ts : List Token} (line : Nat)
    (hpq : p.Encloses q) (hc : c.kind = .punctuator q) (h : Balanced (kindsOf ts)) :
    ∃ line' rest, seekDefinition 0 line (ts ++ [c]) = ⟨line', rest⟩ ∧ Entered c ts rest := by
  rcases unstarted_or_starts [c] h with hu | ⟨us, vs, rfl, hu, hv⟩
  · obtain ⟨hstr, hkey⟩ := Token.not_string_of_punctuator hc
    refine ⟨c.line, [], ?_, .behind hu⟩
    rw [seekDefinition_unstarted hu, seekDefinition, startsDefinition_eq_false hstr hkey,
      if_neg (by simp), Token.nest_closing hpq hc, seekDefinition]
  · refine ⟨lastLine line us, _, ?_, .inside hu hv⟩
    rw [List.append_assoc, seekDefinition_unstarted hu, seekDefinition_at fun _ => hv]

namespace Document

open Parse

section Tokens

variable {o : Offset} {ts us us' : List Token}

theorem ofTokens_copies (hc : Copies o [] us us') :
    ofTokens us' = ⟨(ofTokens us).definitions, (ofTokens us).warnings.map (Warning.down o)⟩ := by
  obtain ⟨c, h⟩ := @definitions_copies _ _ _ 0 hc
  exact ofTokens_eq h

/-- Behind tokens that are no definition, what is left is read as if it were alone. -/
theorem ofTokens_stray {t : Token} {rest : List Token} {line : Nat}
    (h : startKeyword? (t :: ts) = none) (hs : Cursor.toDefinition ⟨t.line, ts⟩ = ⟨line, rest⟩) :
    ofTokens (t :: ts) = ⟨(ofTokens rest).definitions,
      .malformed none (unexpected (t :: ts)) :: (ofTokens rest).warnings⟩ := by
  have hsuffix : (Cursor.seekDefinition 0 t.line ts).rest <:+ ts := seekDefinition_passes.suffix
  have hentry := @entry_stray 0 _ _ h
  rw [Cursor.toDefinition] at hs
  rw [Cursor.toDefinition, hs] at hentry
  rw [hs] at hsuffix
  obtain ⟨c, hrest⟩ := definitions_behind line rest
  refine @ofTokens_eq _ _ c _ ?_
  rw [definitions_step hentry (Nat.lt_succ_of_le hsuffix.length_le), hrest]
  show Outcome.mk (_ ++ (_ ++ [])) _ _ = _
  rw [List.append_nil]
  rfl

/-- Garbage costs one warning. -/
theorem ofTokens_garbage (h : Garbage ts) (hc : Copies o [] us us')
    (hs : startsDefinition us = true) :
    ofTokens (ts ++ us') = ⟨(ofTokens us).definitions,
      .malformed none (unexpected ts) :: (ofTokens us).warnings.map (Warning.down o)⟩ := by
  obtain ⟨t, ts, rfl, hk, hts, hl, hstr⟩ := h.cons
  have hs' : startsDefinition us' = true := (startsDefinition_copies hc (.inl rfl)).trans hs
  -- what is found is a token of the garbage, as no description ends it
  obtain ⟨u, vs, hu, huk⟩ : ∃ u vs, (∀ ws, afterDescription (t :: (ts ++ ws)) = u :: (vs ++ ws)) ∧
      u.keyword? = none := by
    cases ht : t.isString with
    | false => exact ⟨t, ts, fun _ => if_neg (by rw [ht]; exact Bool.noConfusion), hk⟩
    | true =>
      obtain ⟨u, vs, rfl⟩ := List.exists_cons_of_ne_nil (hstr ht)
      exact ⟨u, vs, fun _ => if_pos ht, hts.head u rfl⟩
  have hkey : startKeyword? (t :: (ts ++ us')) = none := by
    rw [startKeyword?, hu]
    exact huk
  have hissue : unexpected (t :: (ts ++ us')) = unexpected (t :: ts) := by
    have hnil := hu []
    rw [List.append_nil, List.append_nil] at hnil
    rw [unexpected, unexpected, hu, hnil]
    rfl
  have hseek : Cursor.toDefinition ⟨t.line, ts ++ us'⟩ = ⟨lastLine t.line ts, us'⟩ := by
    rw [Cursor.toDefinition, Cursor.seekDefinition_unstarted (hts.unstarted hl),
      Cursor.seekDefinition_at fun _ => hs']
  rw [List.cons_append, ofTokens_stray hkey hseek, hissue, ofTokens_copies hc]

end Tokens

/-- A text of tokens that neither are a definition nor hold one outside of brackets, nor describe
what follows them. -/
structure IsGarbage (g : String) : Prop where
  faults : (tokenize (Source.ofString g)).faults = []
  garbage : Garbage (tokenize (Source.ofString g)).tokens

/-- A text whose tokens are a group in brackets. -/
structure IsGroup (g : String) : Prop where
  faults : (tokenize (Source.ofString g)).faults = []
  group : ∃ p q ks, p.Encloses q ∧ Balanced ks ∧
    kindsOf (tokenize (Source.ofString g)).tokens = .punctuator p :: (ks ++ [.punctuator q])

/-- Garbage between definitions costs one warning, and nothing else. -/
theorem garbage_costs_one_warning {d g e : String} (hd : IsClosed d) (hg : IsGarbage g)
    (he : startsDefinition (tokenize (Source.ofString e)).tokens = true) :
    (ofString (d ++ "\n" ++ g ++ "\n" ++ e)).schema = (ofString (d ++ "\n" ++ e)).schema ∧
      (ofString (d ++ "\n" ++ g ++ "\n" ++ e)).warnings.length =
        (ofString (d ++ "\n" ++ e)).warnings.length + 1 ∧
      ∃ before after, (ofString e).warnings = before ++ after ∧
        (ofString (d ++ "\n" ++ e)).warnings = (before ++ after).map (Warning.down (below d)) ∧
        (ofString (d ++ "\n" ++ g ++ "\n" ++ e)).warnings =
          (before.map (Warning.down (below g)) ++
            .malformed none (unexpected (tokenize (Source.ofString g)).tokens) ::
              after.map (Warning.down (below g))).map (Warning.down (below d)) := by
  obtain ⟨us, htokens, hc, hfaults⟩ := tokenize_followed hg.faults e
  have hge : ofString (g ++ "\n" ++ e) = ⟨(ofString e).definitions,
      ((tokenize (Source.ofString e)).faults.map Warning.lexical).map (Warning.down (below g)) ++
        .malformed none (unexpected (tokenize (Source.ofString g)).tokens) ::
          (ofTokens (tokenize (Source.ofString e)).tokens).warnings.map
            (Warning.down (below g))⟩ := by
    rw [ofString, htokens, hfaults, ofTokens_garbage hg.garbage hc he]
    simp only [ofString, List.map_map]
    rfl
  have hdge := ofString_followed hd (g ++ "\n" ++ e)
  rw [hge, ← String.append_assoc, ← String.append_assoc] at hdge
  have hde := ofString_followed hd e
  refine ⟨?_, ?_, _, _, rfl, ?_, ?_⟩
  · rw [schema, schema, hdge, hde]
  · rw [hdge, hde]
    simp only [ofString, List.length_map, List.length_append, List.length_cons, Nat.add_assoc]
  · rw [hde]
    rfl
  · rw [hdge]

theorem isClosed_enum : IsClosed "enum A \x7b B \x7d" :=
  @isClosed_of_keyword _ .enum (by decide) (by cbv) (by cbv) (by cbv)

/-- A scalar in the brackets of the garbage is none of the schema. -/
theorem garbage_costs_one_warning_list :
    let d := "enum A \x7b B \x7d"
    let g := "\"note\" foo [ scalar X ] !"
    let e := "\"Some.\" enum E"
    IsClosed d ∧ IsGarbage g ∧ startsDefinition (tokenize (Source.ofString e)).tokens = true ∧
      (ofString (d ++ "\n" ++ g ++ "\n" ++ e)).schema = (ofString (d ++ "\n" ++ e)).schema ∧
      (ofString (d ++ "\n" ++ g ++ "\n" ++ e)).warnings.length =
        (ofString (d ++ "\n" ++ e)).warnings.length + 1 := by
  intro d g e
  have hkinds : kindsOf (tokenize (Source.ofString g)).tokens = [.string "note", .name "foo",
      .punctuator .bracketL, .name "scalar", .name "X", .punctuator .bracketR,
      .punctuator .bang] := by cbv
  have he : startsDefinition (tokenize (Source.ofString e)).tokens = true := by cbv
  have hkeyless : Keyless (kindsOf (tokenize (Source.ofString g)).tokens) := by
    rw [hkinds]
    have hinner : Balanced [.name "scalar", .name "X"] := .token rfl (.single rfl)
    have hgroup : Keyless (.punctuator .bracketL :: ([.name "scalar", .name "X"] ++
        .punctuator .bracketR :: [.punctuator .bang])) :=
      .group .brackets hinner (.token rfl (by rintro n ⟨⟩) .nil)
    refine .token rfl (by rintro n ⟨⟩) (.token rfl (fun n hn => ?_) hgroup)
    cases hn
    rfl
  have hgarbage : Garbage (tokenize (Source.ofString g)).tokens := by
    refine ⟨hkeyless, fun h => ?_, fun t ht o c _ hk => ?_, fun t ht => ?_⟩
    · rw [h] at hkinds
      cases hkinds
    · have hfirst := congrArg List.head? hkinds
      rw [kindsOf, List.head?_map, ht, Option.map_some, hk] at hfirst
      cases hfirst
    · have hlast := congrArg List.getLast? hkinds
      rw [kindsOf, List.getLast?_map, ht] at hlast
      exact (Token.not_string_of_punctuator (Option.some.inj hlast)).1
  have hg : IsGarbage g := ⟨by cbv, hgarbage⟩
  obtain ⟨hs, hl, -⟩ := garbage_costs_one_warning isClosed_enum hg he
  exact ⟨isClosed_enum, hg, he, hs, hl⟩

/-- A group where a definition is expected is entered: what is left of it at the first definition
that starts in it outside of further brackets is read as if it were alone. -/
theorem group_entered {d g : String} (hd : IsClosed d) (hg : IsGroup g) :
    ∃ (o c : Token) (inner rest : List Token),
      (tokenize (Source.ofString g)).tokens = o :: (inner ++ [c]) ∧ Entered c inner rest ∧
        ofString (d ++ "\n" ++ g) = ⟨(ofString d).definitions ++ (ofTokens rest).definitions,
          (.malformed none ⟨some o.toOccurrence, .definition⟩ :: (ofTokens rest).warnings).map
            (Warning.down (below d))⟩ := by
  obtain ⟨hfaults, p, q, ks, hpq, hks, hkinds⟩ := hg
  obtain ⟨o, ts, htokens, ho, hts⟩ := kindsOf_eq_cons.mp hkinds
  obtain ⟨inner, cs, rfl, rfl, hcs⟩ := kindsOf_eq_append.mp hts
  obtain ⟨c, rfl, hc⟩ := kindsOf_eq_singleton.mp hcs
  obtain ⟨line, rest, hseek, hrest⟩ := Cursor.seekDefinition_entered o.line hpq hc hks
  obtain ⟨hstr, hkey⟩ := Token.not_string_of_punctuator ho
  have hafter : afterDescription (o :: (inner ++ [c])) = o :: (inner ++ [c]) :=
    if_neg (by rw [hstr]; exact Bool.noConfusion)
  have hstray : startKeyword? (o :: (inner ++ [c])) = none := by
    rw [startKeyword?, hafter]
    exact hkey
  have hissue : unexpected (o :: (inner ++ [c])) = ⟨some o.toOccurrence, .definition⟩ := by
    rw [unexpected, hafter]
    rfl
  have halone : ofString g = ⟨(ofTokens rest).definitions,
      .malformed none ⟨some o.toOccurrence, .definition⟩ :: (ofTokens rest).warnings⟩ := by
    rw [ofString, hfaults, htokens, ofTokens_stray hstray hseek, hissue]
    rfl
  exact ⟨o, c, inner, rest, htokens, hrest, by rw [ofString_followed hd, halone]⟩

/-- The scalar in a group is read. -/
theorem group_entered_scalar :
    let d := "enum A \x7b B \x7d"
    let g := "\x7b scalar X \x7d"
    let x : Definition := .scalar ⟨"X", none⟩
    IsClosed d ∧ IsGroup g ∧
      (ofString (d ++ "\n" ++ g)).definitions = (ofString d).definitions ++ [x] ∧
      ∃ (o c : Token) (inner rest : List Token),
        (tokenize (Source.ofString g)).tokens = o :: (inner ++ [c]) ∧ Entered c inner rest ∧
          (ofTokens rest).definitions = [x] := by
  intro d g x
  have hkinds : kindsOf (tokenize (Source.ofString g)).tokens = .punctuator .braceL ::
      ([.name "scalar", .name "X"] ++ [.punctuator .braceR]) := by cbv
  have hg : IsGroup g := ⟨by cbv, _, _, _, .braces, .token rfl (.single rfl), hkinds⟩
  have hall : (ofString (d ++ "\n" ++ g)).definitions = (ofString d).definitions ++ [x] := by cbv
  obtain ⟨o, c, inner, rest, hts, hrest, hdoc⟩ := group_entered isClosed_enum hg
  refine ⟨isClosed_enum, hg, hall, o, c, inner, rest, hts, hrest, ?_⟩
  rw [hdoc] at hall
  exact List.append_cancel_left hall

end Document

end GraphClient
