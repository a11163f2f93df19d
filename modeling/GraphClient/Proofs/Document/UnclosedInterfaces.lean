import GraphClient.Proofs.Document.Accepts
import GraphClient.Proofs.Document.Unclosed

/-!
# Interfaces without a closing brace

The block of an interface is not read but skipped, up to the brace that closes it, whatever starts
on the lines behind it. So an interface that is not closed swallows the complete definitions that
follow it: they leave nothing, and reading goes on behind the first brace that closes more than is
opened, if there is one (`Document.unclosed_interface_swallows`).
-/

namespace GraphClient

/-! ## Braces -/

/-- How many braces some tokens open. -/
def openings (ts : List Token) : Nat := ts.countP (·.is .braceL)

/-- How many braces some tokens close. -/
def closings (ts : List Token) : Nat := ts.countP (·.is .braceR)

/-- Tokens that close no brace which they do not open. -/
def Sheltered (ts : List Token) : Prop := ∀ us, us <+: ts → closings us ≤ openings us

/-- Tokens that close the braces which they open, and no others. -/
structure Nested (ts : List Token) : Prop where
  sheltered : Sheltered ts
  level : closings ts = openings ts

section Braces

variable {ts us : List Token} {t u : Token}

@[simp] theorem openings_nil : openings [] = 0 := rfl

@[simp] theorem closings_nil : closings [] = 0 := rfl

@[simp] theorem openings_append : openings (ts ++ us) = openings ts + openings us :=
  List.countP_append

@[simp] theorem closings_append : closings (ts ++ us) = closings ts + closings us :=
  List.countP_append

/-- What a token opens and closes. -/
theorem braces_opening (h : t.kind = .punctuator .braceL) :
    openings (t :: ts) = openings ts + 1 ∧ closings (t :: ts) = closings ts := by
  simp [openings, closings, Token.is, h]

theorem braces_closing (h : t.kind = .punctuator .braceR) :
    openings (t :: ts) = openings ts ∧ closings (t :: ts) = closings ts + 1 := by
  simp [openings, closings, Token.is, h]

theorem braces_other (ho : t.kind ≠ .punctuator .braceL) (hc : t.kind ≠ .punctuator .braceR) :
    openings (t :: ts) = openings ts ∧ closings (t :: ts) = closings ts := by
  simp [openings, closings, Token.is, ho, hc]

theorem Nested.nil : Nested [] where
  sheltered us h := by rw [List.prefix_nil.mp h]; exact Nat.le_refl 0
  level := rfl

theorem Sheltered.append (h : Nested ts) (h' : Sheltered us) : Sheltered (ts ++ us) := by
  intro vs hvs
  rcases List.prefix_or_prefix_of_prefix hvs (List.prefix_append ts us) with hv | ⟨ws, rfl⟩
  · exact h.sheltered vs hv
  · have hw : closings ws ≤ openings ws := h' ws ((List.prefix_append_right_inj ts).mp hvs)
    have hl := h.level
    simp only [openings_append, closings_append]
    omega

theorem Nested.append (h : Nested ts) (h' : Nested us) : Nested (ts ++ us) where
  sheltered := .append h h'.sheltered
  level := by rw [closings_append, openings_append, h.level, h'.level]

theorem Nested.other (ho : t.kind ≠ .punctuator .braceL) (hc : t.kind ≠ .punctuator .braceR)
    (h : Nested ts) : Nested (t :: ts) where
  sheltered us hus := by
    rcases List.prefix_cons_iff.mp hus with rfl | ⟨vs, rfl, hvs⟩
    · exact Nat.le_refl 0
    · rw [(braces_other ho hc).1, (braces_other ho hc).2]
      exact h.sheltered vs hvs
  level := by rw [(braces_other ho hc).1, (braces_other ho hc).2, h.level]

theorem Nested.braces (ht : t.kind = .punctuator .braceL) (h : Nested ts)
    (hu : u.kind = .punctuator .braceR) : Nested (t :: (ts ++ [u])) where
  sheltered us hus := by
    rcases List.prefix_cons_iff.mp hus with rfl | ⟨vs, rfl, hvs⟩
    · exact Nat.le_refl 0
    · rw [(braces_opening ht).1, (braces_opening ht).2]
      rcases List.prefix_concat_iff.mp hvs with rfl | hvs
      · have hl := h.level
        simp only [openings_append, closings_append, (braces_closing hu).1, (braces_closing hu).2,
          openings_nil, closings_nil]
        omega
      · exact Nat.le_succ_of_le (h.sheltered vs hvs)
  level := by
    rw [(braces_opening ht).1, (braces_opening ht).2, openings_append, closings_append,
      (braces_closing hu).1, (braces_closing hu).2, h.level, openings_nil, closings_nil]

theorem Nested.enclosed {o c : Punctuator} (ho : o.Encloses c) (ht : t.kind = .punctuator o)
    (h : Nested ts) (hu : u.kind = .punctuator c) : Nested (t :: (ts ++ [u])) := by
  cases ho with
  | braces => exact .braces ht h hu
  | parens | brackets =>
    have hlast : Nested [u] := .other (by simp [hu]) (by simp [hu]) .nil
    exact .other (by simp [ht]) (by simp [ht]) (h.append hlast)

theorem Balanced.nested {ks : List TokenKind} (h : Balanced ks) (hk : kindsOf ts = ks) :
    Nested ts := by
  induction h generalizing ts with
  | nil =>
    rw [kindsOf_eq_nil.mp hk]
    exact .nil
  | token hb _ ih =>
    obtain ⟨t, us, rfl, rfl, hus⟩ := kindsOf_eq_cons.mp hk
    exact .other (fun e => by rw [e] at hb; cases hb) (fun e => by rw [e] at hb; cases hb) (ih hus)
  | group ho _ _ ihk ihl =>
    obtain ⟨t, us, rfl, ht, hus⟩ := kindsOf_eq_cons.mp hk
    obtain ⟨vs, ws, rfl, hvs, hws⟩ := kindsOf_eq_append.mp hus
    obtain ⟨u, xs, rfl, hu, hxs⟩ := kindsOf_eq_cons.mp hws
    have hgroup := (Nested.enclosed ho ht (ihk hvs) hu).append (ihl hxs)
    rwa [List.cons_append, List.append_assoc, List.singleton_append] at hgroup

/-- Tokens are sheltered up to the first brace that closes more than they open. -/
theorem sheltered_or_closed (ts : List Token) : Sheltered ts ∨
    ∃ us u vs, ts = us ++ u :: vs ∧ Nested us ∧ u.kind = .punctuator .braceR := by
  -- from the front: what is closed stays closed, and what is sheltered may be closed by one more
  induction ts using List.reverseRecOn with
  | nil => exact .inl Nested.nil.sheltered
  | append_singleton ts t ih =>
    rcases ih with hs | ⟨us, u, vs, rfl, hus, hu⟩
    · by_cases hclose : t.kind = .punctuator .braceR ∧ closings ts = openings ts
      · exact .inr ⟨ts, t, [], rfl, ⟨hs, hclose.2⟩, hclose.1⟩
      · left
        intro us hus
        rcases List.prefix_concat_iff.mp hus with rfl | hus
        · have hts := hs ts List.prefix_rfl
          rw [openings_append, closings_append]
          by_cases hc : t.kind = .punctuator .braceR
          · have hne : closings ts ≠ openings ts := fun e => hclose ⟨hc, e⟩
            rw [(braces_closing hc).1, (braces_closing hc).2, openings_nil, closings_nil]
            omega
          · by_cases ho : t.kind = .punctuator .braceL
            · rw [(braces_opening ho).1, (braces_opening ho).2, openings_nil, closings_nil]
              omega
            · rwa [(braces_other ho hc).1, (braces_other ho hc).2, openings_nil, closings_nil]
        · exact hs us hus
    · exact .inr ⟨us, u, vs ++ [t], by simp, hus, hu⟩

end Braces

/-! ## Complete definitions -/

namespace Grammar

theorem Group.balanced {o c : Punctuator} {ks : List TokenKind} (ho : o.Encloses c)
    (h : Group o c ks) : Balanced ks := (h.inert ho).balanced

theorem Block.balanced {α : Type} {P : List Token → α → Prop} {ts : List Token} {as : List α}
    (h : Block P ts as) (hP : ∀ us a, P us a → Balanced (kindsOf us)) : Balanced (kindsOf ts) :=
  (h.group hP).balanced .braces

theorem Body.balanced {d : Option String} {ts : List Token} {o : Option GraphClient.Definition}
    (h : Body d ts o) : Balanced (kindsOf ts) := by
  cases h with
  | scalar hk ht _ hdirs =>
    simp only [kindsOf, List.map_cons, hk, ht]
    exact .token rfl (.token rfl hdirs.inert.balanced)
  | enum hk ht _ hdirs hb =>
    simp only [kindsOf, List.map_cons, List.map_append, hk, ht]
    refine .token rfl (.token rfl (hdirs.inert.balanced.append ?_))
    exact hb.balanced fun _ _ => EnumValue.balanced
  | type hk ht _ hi hdirs hb =>
    simp only [kindsOf, List.map_cons, List.map_append, hk, ht]
    refine .token rfl (.token rfl (hi.inert.balanced.append (hdirs.inert.balanced.append ?_)))
    exact hb.balanced fun _ _ => Field.balanced
  | input hk ht _ hdirs hb =>
    simp only [kindsOf, List.map_cons, List.map_append, hk, ht]
    refine .token rfl (.token rfl (hdirs.inert.balanced.append ?_))
    exact hb.balanced fun _ _ => InputValue.balanced
  | interface hk ht _ hi hdirs hb =>
    simp only [kindsOf, List.map_cons, List.map_append, hk, ht]
    refine .token rfl (.token rfl (hi.inert.balanced.append (hdirs.inert.balanced.append ?_)))
    exact hb.balanced fun _ _ => Field.balanced
  | union hk ht _ hdirs ha =>
    simp only [kindsOf, List.map_cons, List.map_append, hk, ht]
    exact .token rfl (.token rfl (hdirs.inert.balanced.append ha.inert.balanced))
  | schema hk hdirs ho hb hc =>
    simp only [kindsOf, List.map_cons, List.map_append, List.map_nil, hk, ho, hc]
    exact .token rfl (hdirs.inert.balanced.append (.enclosed .braces hb))
  | @directive k a t on n gs rs ls hk ha ht _ hg hs hon hl =>
    have hrs : Balanced (kindsOf rs) := by
      simp only [List.mem_cons, List.not_mem_nil, or_false] at hs
      rcases hs with hs | hs <;> rw [hs]
      · exact .nil
      · exact .single rfl
    simp only [kindsOf, List.map_cons, List.map_append, hk, ha, ht, hon]
    refine .token rfl (.token rfl (.token rfl ((hg.balanced .parens).append (hrs.append ?_))))
    exact .token rfl (hl.inert rfl).balanced
  | extension hk he =>
    obtain ⟨w, ls, hes, hls⟩ := he.inert
    rw [kindsOf, List.map_cons, hk]
    show Balanced (.name "extend" :: kindsOf _)
    rw [hes]
    exact .token rfl (.token rfl hls.balanced)

theorem Document.nested {ts : List Token} {ds : List GraphClient.Definition}
    (h : Document ts ds) : Nested ts := by
  induction h with
  | nil => exact .nil
  | cons hd _ ih =>
    obtain ⟨hdesc, hbody⟩ := hd
    exact ((hdesc.balanced.nested rfl).append (hbody.balanced.nested rfl)).append ih

/-- An interface whose block has no closing brace. -/
inductive UnclosedInterface : List Token → String → Prop where
  | mk {ds is dirs ms : List Token} {k t o : Token} {d : Option String} {n : String}
      {fields : List FieldDef} : Description ds d → k.kind = .name "interface" →
      t.kind = .name n → Free.Interfaces (kindsOf is) → Free.Directives (kindsOf dirs) →
      o.kind = .punctuator .braceL → Many Free.Field ms fields →
      UnclosedInterface (ds ++ k :: t :: (is ++ (dirs ++ o :: ms))) n

theorem UnclosedInterface.ne_nil {ts : List Token} {n : String} (h : UnclosedInterface ts n) :
    ts ≠ [] := by
  cases h
  simp

theorem UnclosedInterface.starts {ts : List Token} {n : String} (h : UnclosedInterface ts n)
    (rest : List Token) : startsDefinition (ts ++ rest) = true := by
  obtain ⟨hd, hk, ht, -, -, -, -⟩ := h
  rw [List.append_assoc]
  exact startsDefinition_keyword hd hk rfl (by simp [isName_of_name ht])

end Grammar

namespace Parse

open Grammar

variable {depth line : Nat} {n : String} {ts us rest : List Token} {u : Token}

/-- Leaves a block in braces, behind its opening brace. -/
def leaveBlock : Parse Unit := fun c => leaveGroup .braceL .braceR 1 c.line c.rest

/-- What a block without a closing brace is warned of at the end. -/
def unclosedBlock : Issue := ⟨none, .text Punctuator.braceR.text⟩

/-- Tokens that do not close the group only change its depth. -/
theorem leaveGroup_within (h : ∀ us, us <+: ts → closings us < depth + openings us) :
    leaveGroup .braceL .braceR depth line (ts ++ rest) =
      leaveGroup .braceL .braceR (depth + openings ts - closings ts) (lastLine line ts) rest := by
  induction ts generalizing depth line with
  | nil => rfl
  | cons t ts ih =>
    have hcons : ∀ us, us <+: ts → closings (t :: us) < depth + openings (t :: us) :=
      fun us hus => h (t :: us) (List.prefix_cons_inj t |>.mpr hus)
    rw [List.cons_append, lastLine_cons]
    by_cases ho : t.kind = .punctuator .braceL
    · simp only [(braces_opening ho).1, (braces_opening ho).2] at hcons ⊢
      rw [leaveGroup_open ho, ih fun us hus => by have := hcons us hus; omega]
      congr 1
      omega
    · by_cases hc : t.kind = .punctuator .braceR
      · simp only [(braces_closing hc).1, (braces_closing hc).2] at hcons ⊢
        have hdepth : 1 < depth := hcons [] List.nil_prefix
        rw [leaveGroup_inner (by decide) hc hdepth,
          ih fun us hus => by have := hcons us hus; omega]
        congr 1
        omega
      · simp only [(braces_other ho hc).1, (braces_other ho hc).2] at hcons ⊢
        rw [leaveGroup_other ho hc, ih hcons]

/-- A block goes on behind sheltered tokens. -/
theorem leaveBlock_within (h : Sheltered us) : leaveBlock ⟨line, us ++ rest⟩ =
    leaveGroup .braceL .braceR (1 + openings us - closings us) (lastLine line us) rest := by
  refine leaveGroup_within fun vs hvs => ?_
  have := h vs hvs
  omega

/-- A block that nothing closes ends with the document. -/
theorem leaveBlock_sheltered (h : Sheltered us) :
    leaveBlock ⟨line, us⟩ = ⟨[], ⟨lastLine line us, []⟩, .error unclosedBlock⟩ := by
  have hleave := @leaveBlock_within line us [] h
  rw [List.append_nil] at hleave
  exact hleave

/-- A block ends behind the first brace that closes more than is opened. -/
theorem leaveBlock_closed (h : Nested us) (hu : u.kind = .punctuator .braceR) :
    leaveBlock ⟨line, us ++ u :: rest⟩ = ⟨[], ⟨u.line, rest⟩, .ok ()⟩ := by
  have hlevel := h.level
  rw [leaveBlock_within h.sheltered, leaveGroup_last (by decide) hu (by omega)]

/-- The fields of an interface are skipped, and its block is not left at a definition. -/
theorem definition_unclosed_interface (h : UnclosedInterface ts n) :
    definition ⟨line, ts ++ rest⟩ = (do return (some (.interface n), ← tentative leaveBlock) :
      Parse (Option GraphClient.Definition × Option Issue)) ⟨lastLine line ts, rest⟩ := by
  obtain ⟨hd, hk, ht, hi, hdirs, ho, hm⟩ := h
  rename_i ds is dirs ms k t o d fields
  have hopen : BehindName (dirs ++ o :: (ms ++ rest)) :=
    hdirs.behindName (.inr ⟨o, _, rfl, _, by decide, ho⟩)
  -- the fields have nested braces, so that the block is still open behind them
  have hbody : ∀ line, tentative (do interfaces; directives; braces)
      ⟨line, is ++ (dirs ++ o :: (ms ++ rest))⟩ =
        tentative leaveBlock ⟨lastLine o.line ms, rest⟩ := by
    intro line
    unfold tentative
    congr 1
    refine (Reads.followed (implements_reads hi hopen)).trans ?_
    refine (Reads.followed (directives_reads hdirs (avoids_of_kind ho (by decide)))).trans ?_
    rw [braces, group_of_nextIs (nextIs_cons ho), leaveGroup_open ho,
      leaveGroup_balanced .braces (hm.balanced fun _ _ => Free.Field.balanced) rfl (by omega)]
    rfl
  simp only [lastLine_append, lastLine_cons, List.append_assoc, List.cons_append]
  rw [definition_of_keyword hd hk rfl]
  refine (Reads.followed (name_reads ht)).trans ?_
  exact congrArg (Outcome.andThen · _) (hbody _)

/-- An interface that nothing closes leaves nothing of what follows. -/
theorem definitions_sheltered (h : UnclosedInterface ts n) (hr : Sheltered rest) :
    ∃ c, definitions ⟨line, ts ++ rest⟩ =
      ⟨[.malformed none unclosedBlock], c, .ok [.interface n]⟩ := by
  have hdef := (definition_unclosed_interface h).trans
    (tentative_error (@leaveBlock_sheltered (lastLine line ts) _ hr)
      (some (GraphClient.Definition.interface n)))
  have hentry := entry_recovers (.inl hdef)
  have hend : ∀ m l, (resume m ⟨l, []⟩).rest = [] := fun m l => by
    unfold resume
    split <;> rfl
  have hlt : (resume (ts ++ rest).length ⟨lastLine (lastLine line ts) rest, []⟩).rest.length <
      (ts ++ rest).length := by
    rw [hend]
    exact List.length_pos_iff.mpr (by simp [h.ne_nil])
  exact ⟨_, by rw [definitions_step hentry hlt, definitions_stop (hend _ _)]; rfl⟩

/-- Behind the first brace that closes more than is opened, definitions are read as if alone. -/
theorem definitions_closed (h : UnclosedInterface ts n) (hus : Nested us)
    (hu : u.kind = .punctuator .braceR) :
    ∃ c, definitions ⟨line, ts ++ (us ++ u :: rest)⟩ =
      ⟨(Document.ofTokens rest).warnings, c,
        .ok (.interface n :: (Document.ofTokens rest).definitions)⟩ := by
  have hdef := (definition_unclosed_interface h).trans
    (tentative_ok (@leaveBlock_closed (lastLine line ts) _ rest _ hus hu)
      (some (GraphClient.Definition.interface n)))
  have hlt : rest.length < (ts ++ (us ++ u :: rest)).length := by
    simp only [List.length_append, List.length_cons]
    omega
  obtain ⟨c, hc⟩ := GraphClient.Document.definitions_behind u.line rest
  refine ⟨c, ?_⟩
  rw [definitions_step (entry_ok hdef) hlt, hc]
  show Outcome.mk ([] ++ ((Document.ofTokens rest).warnings ++ [])) _ _ = _
  rw [List.append_nil]
  rfl

/-- Complete definitions are read one by one in front of the start of another one. -/
theorem definitions_derived {ds es : List GraphClient.Definition} {ws : List Warning} {c : Cursor}
    (h : Grammar.Document ts ds) (hr : AtDefinition rest)
    (hrest : definitions ⟨lastLine line ts, rest⟩ = ⟨ws, c, .ok es⟩) :
    definitions ⟨line, ts ++ rest⟩ = ⟨ws, c, .ok (ds ++ es)⟩ := by
  induction h generalizing line with
  | nil => exact hrest
  | @cons ts us o ds hd hds ih =>
    have hnext : AtDefinition (us ++ rest) := by
      cases hds with
      | nil => exact hr
      | cons hd _ =>
        rw [List.append_assoc]
        exact fun _ => hd.starts
    have hentry := entry_reads (@definition_reads_of line _ _ _ hd hnext)
    unfold Reads at hentry
    rw [lastLine_append] at hrest
    rw [List.append_assoc, definitions_step hentry (length_lt_append hd.ne_nil _), ih hrest,
      List.append_assoc]
    show Outcome.mk (ws ++ []) c _ = _
    rw [List.append_nil]
    rfl

end Parse

namespace Document

open Parse Grammar

variable {n : String} {pre ts us rest : List Token} {ps ds : List Definition} {u : Token}

/-- What is read of an interface and its followers is read behind complete definitions too. -/
theorem ofTokens_behind {es : List Definition} {ws : List Warning}
    (hp : Grammar.Document pre ps) (hr : AtDefinition rest)
    (h : ∀ line, ∃ c, Parse.definitions ⟨line, rest⟩ = ⟨ws, c, .ok es⟩) :
    ofTokens (pre ++ rest) = ⟨ps ++ es, ws⟩ := by
  obtain ⟨c, hc⟩ := h (lastLine 0 pre)
  exact ofTokens_eq (definitions_derived hp hr hc)

theorem ofTokens_sheltered (hp : Grammar.Document pre ps) (h : UnclosedInterface ts n)
    (hr : Sheltered rest) : ofTokens (pre ++ (ts ++ rest)) =
      ⟨ps ++ [.interface n], [.malformed none unclosedBlock]⟩ :=
  ofTokens_behind hp (fun _ => h.starts rest) fun _ => definitions_sheltered h hr

theorem ofTokens_closed (hp : Grammar.Document pre ps) (h : UnclosedInterface ts n)
    (hus : Nested us) (hu : u.kind = .punctuator .braceR) :
    ofTokens (pre ++ (ts ++ (us ++ u :: rest))) =
      ⟨ps ++ .interface n :: (ofTokens rest).definitions, (ofTokens rest).warnings⟩ :=
  ofTokens_behind hp (fun _ => h.starts _) fun _ => definitions_closed h hus hu

/-- Tokens with nested braces leave nothing behind an interface that is not closed. -/
theorem ofTokens_nested (hp : Grammar.Document pre ps) (h : UnclosedInterface ts n)
    (hus : Nested us) (vs : List Token) :
    ofTokens (pre ++ (ts ++ (us ++ vs))) = ofTokens (pre ++ (ts ++ vs)) := by
  rcases sheltered_or_closed vs with hvs | ⟨ws, w, xs, rfl, hws, hw⟩
  · rw [ofTokens_sheltered hp h hvs, ofTokens_sheltered hp h (Sheltered.append hus hvs)]
  · rw [ofTokens_closed hp h hws hw, ← List.append_assoc us,
      ofTokens_closed hp h (hus.append hws) hw]

/-- An interface that is not closed swallows what follows, on whatever lines: tokens with nested
braces leave nothing, in front of any others, and the document ends with a warning or goes on
behind the first brace that closes more than is opened. Complete definitions have nested braces, so
they are recorded as they are alone only if there is nothing to record. -/
theorem unclosed_interface_swallows (hp : Grammar.Document pre ps) (h : UnclosedInterface ts n) :
    (∀ us vs, Nested us →
      ofTokens (pre ++ (ts ++ (us ++ vs))) = ofTokens (pre ++ (ts ++ vs))) ∧
    (∀ rest, Sheltered rest ∧ ofTokens (pre ++ (ts ++ rest)) =
        ⟨ps ++ [.interface n], [.malformed none unclosedBlock]⟩ ∨
      ∃ us u vs, rest = us ++ u :: vs ∧ Nested us ∧ u.kind = .punctuator .braceR ∧
        ofTokens (pre ++ (ts ++ rest)) =
          ⟨ps ++ .interface n :: (ofTokens vs).definitions, (ofTokens vs).warnings⟩) ∧
    ∀ us ds, Grammar.Document us ds → Nested us ∧ ofTokens us = ⟨ds, []⟩ ∧
      ((ofTokens (pre ++ (ts ++ us))).definitions = ps ++ .interface n :: ds ↔ ds = []) := by
  refine ⟨fun us vs hus => ofTokens_nested hp h hus vs, fun rest => ?_, fun us ds hus =>
    ⟨hus.nested, definitions_reads (definitions_members hus), ?_⟩⟩
  · rcases sheltered_or_closed rest with hr | ⟨us, u, vs, rfl, hus, hu⟩
    · exact .inl ⟨hr, ofTokens_sheltered hp h hr⟩
    · exact .inr ⟨us, u, vs, rfl, hus, hu, ofTokens_closed hp h hus hu⟩
  · rw [ofTokens_sheltered hp h hus.nested.sheltered, List.append_cancel_left_eq]
    simp [eq_comm]

/-- A scalar on the first line. -/
def dateScalar : List Token := tokensOn 1 [.name "scalar", .name "Date"]

/-- An interface with a field, and with no closing brace. -/
def openInterface : List Token :=
  tokensOn 2 [.name "interface", .name "Node", .punctuator .braceL] ++
    tokensOn 3 [.name "id", .punctuator .colon, .name "ID"]

theorem unclosed_interface_swallows_type :
    let date : Definition := .scalar ⟨"Date", none⟩
    let b : Definition := .object ⟨"B", none, [⟨"y", none, .named "Int", []⟩]⟩
    Grammar.Document dateScalar [date] ∧ UnclosedInterface openInterface "Node" ∧
      Grammar.Document typeBehind [b] ∧
      ofTokens (dateScalar ++ (openInterface ++ typeBehind)) =
        ⟨[date, .interface "Node"], [.malformed none unclosedBlock]⟩ := by
  intro date b
  have hd : Grammar.Document dateScalar [date] :=
    .cons (.mk .none (@Body.scalar none _ _ "Date" [] rfl rfl
      (by simp [Plain, Keyword.ofText?]) .nil)) .nil
  have hn : UnclosedInterface openInterface "Node" :=
    @UnclosedInterface.mk [] [] [] _ _ _ _ none "Node" _ .none rfl rfl .none .nil rfl
      (@Many.cons _ _ _ [] _ _ (field_annotated 3 "id" "ID") .nil)
  have hfield : Grammar.Field ((typeBehind.drop 3).take 3) ⟨"y", none, .named "Int", []⟩ :=
    @Grammar.Field.mk [] [] (tokensOn 5 [.name "Int"]) [] _ _ none "y" [] (.named "Int") .none rfl
      .none rfl rfl trivial .nil
  have hblock : Block Grammar.Field (typeBehind.drop 2) _ :=
    @Block.members _ _ _ _ ((typeBehind.drop 3).take 3) _ rfl
      (@Many.cons _ _ _ [] _ _ hfield .nil) rfl
  have hb : Grammar.Document typeBehind [b] :=
    .cons (.mk .none (@Body.type none _ _ "B" [] [] (typeBehind.drop 2) _ rfl rfl
      (by simp [Plain, Keyword.ofText?]) .none .nil hblock)) .nil
  obtain ⟨hswallows, -, hcomplete⟩ := unclosed_interface_swallows hd hn
  have hall := hswallows typeBehind [] (hcomplete typeBehind [b] hb).1
  rw [List.append_nil, List.append_nil] at hall
  exact ⟨hd, hn, hb, hall.trans (by cbv)⟩

end Document

end GraphClient
