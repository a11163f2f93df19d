import GraphClient.Proofs.Document.Followed
import GraphClient.Proofs.Document.Recovery

/-!
# Blocks without a closing brace

A block that is not closed ends where a definition interrupts it (`Grammar.Interrupting`): no
member before is taken for that definition, and none goes on with its tokens. So the definition of
the block is read with its members (`Grammar.Unclosed.definition_reads`), and what follows is read
as if it were alone.
-/

namespace GraphClient

namespace Grammar

/-- A type, an input or an enum whose block has no closing brace. -/
inductive Unclosed : List Token → GraphClient.Definition → Prop where
  | enum {ds dirs ms : List Token} {k t o : Token} {d : Option String} {n : String}
      {values : List EnumValueDef} : Description ds d → k.kind = .name "enum" → t.kind = .name n →
      Free.Directives (kindsOf dirs) → o.kind = .punctuator .braceL →
      Many Free.EnumValue ms values →
      Unclosed (ds ++ k :: t :: (dirs ++ o :: ms)) (.enum ⟨n, d, values⟩)
  | type {ds is dirs ms : List Token} {k t o : Token} {d : Option String} {n : String}
      {fields : List FieldDef} : Description ds d → k.kind = .name "type" → t.kind = .name n →
      Free.Interfaces (kindsOf is) → Free.Directives (kindsOf dirs) →
      o.kind = .punctuator .braceL → Many Free.Field ms fields →
      Unclosed (ds ++ k :: t :: (is ++ (dirs ++ o :: ms))) (.object ⟨n, d, fields⟩)
  | input {ds dirs ms : List Token} {k t o : Token} {d : Option String} {n : String}
      {fields : List InputValueDef} : Description ds d → k.kind = .name "input" →
      t.kind = .name n → Free.Directives (kindsOf dirs) → o.kind = .punctuator .braceL →
      Many Free.InputValue ms fields →
      Unclosed (ds ++ k :: t :: (dirs ++ o :: ms)) (.input ⟨n, d, fields⟩)

theorem Unclosed.ne_nil {ts : List Token} {e : GraphClient.Definition} (h : Unclosed ts e) :
    ts ≠ [] := by
  cases h <;> simp

/-- What may follow the name of a definition that has a body. -/
def bodyOpeners : List TokenKind :=
  [.punctuator .braceL, .punctuator .equals, .punctuator .atSign, .name "implements"]

/-- Tokens that begin behind a line with a keyword and a name on one line, and then end or go on
with a body. -/
inductive Interrupting (line : Nat) : List Token → Prop where
  | mk {ds us : List Token} {k t : Token} {d : Option String} {w n : String} :
      Description ds d → k.kind = .name w → ¬ Plain w → t.kind = .name n → t.line = k.line →
      (∀ u ∈ us.head?, u.kind ∈ bodyOpeners) →
      (∀ u ∈ (ds ++ k :: t :: us).head?, line < u.line) → Interrupting line (ds ++ k :: t :: us)

theorem followsDefinitionName_of_kind {o : Option Token} (h : ∀ u ∈ o, u.kind ∈ bodyOpeners) :
    followsDefinitionName o = true := by
  cases o with
  | none => rfl
  | some u =>
    have hu := h u rfl
    simp only [bodyOpeners, List.mem_cons, List.not_mem_nil, or_false] at hu
    rcases hu with hu | hu | hu | hu <;>
      simp [followsDefinitionName, Token.is, Token.name?, hu]

namespace Interrupting

variable {line : Nat} {ts : List Token}

theorem avoids {ps : List Punctuator} (h : Interrupting line ts) : Avoids ps ts := by
  obtain ⟨hd, hk, -, -, -, -, -⟩ := h
  exact hd.avoids hk

theorem interruptsBlock (h : Interrupting line ts) : interruptsBlock ⟨line, ts⟩ = true := by
  obtain ⟨hd, hk, hw, ht, hl, hu, hline⟩ := h
  rename_i ds us k t d w n
  have hafter := @afterDescription_describes _ (t :: us) _ _ _ hd hk
  have hkey : k.keyword?.isSome = true := by
    simp only [Token.keyword?, Token.name?_eq_some.mpr hk, Option.bind_some]
    exact Option.isSome_iff_ne_none.mpr hw
  have hname : t.isName = true := by rw [Token.isName, Token.name?_eq_some.mpr ht]; rfl
  obtain ⟨u, vs, e, -, -⟩ := @Description.head _ (t :: us) _ _ _ hd hk
  rw [e] at hafter hline ⊢
  simp only [GraphClient.interruptsBlock, hafter, hkey, hname, hl,
    followsDefinitionName_of_kind hu, hline u rfl, decide_true, beq_self_eq_true, Bool.and_true]

theorem stops (h : Interrupting line ts) : Parse.continuesBlock ⟨line, ts⟩ = false := by
  rw [Parse.continuesBlock, h.interruptsBlock, Bool.not_true, Bool.and_false]

end Interrupting

end Grammar

namespace Parse

open Grammar

variable {α β : Type} {owner n : String} {line : Nat} {o t : Token}
  {ts us dirs ms rest : List Token} {d : Option String}

section Blocks

variable {p : Parse α} {P : List Token → α → Prop} {as : List α}

/-- A block whose loop stops in front of a definition is not closed. -/
theorem block_interrupted {l : Nat} (ho : o.kind = .punctuator .braceL)
    (hl : loop continuesBlock (member owner p) ⟨o.line, ts⟩ = ⟨[], ⟨l, rest⟩, .ok as⟩)
    (hr : Interrupting l rest) :
    block owner p ⟨line, o :: ts⟩ = ⟨[.unclosed owner], ⟨l, rest⟩, .ok as⟩ := by
  rw [block_of_loop ho hl, accept_of_not_nextIs (nextIs_of_avoids hr.avoids), Outcome.andThen_ok]
  rfl

/-- A block without a closing brace ends where a definition interrupts it. -/
theorem MemberForm.block_unclosed (hf : MemberForm p P) (ho : o.kind = .punctuator .braceL)
    (hm : Many P ms as) (hr : Interrupting (lastLine o.line ms) rest) :
    block owner p ⟨line, o :: (ms ++ rest)⟩ =
      ⟨[.unclosed owner], ⟨lastLine o.line ms, rest⟩, .ok as⟩ := by
  have hl := hf.loop_members owner hm hr.avoids (loop_stop hr.stops)
  rw [List.append_nil] at hl
  exact block_interrupted ho hl hr

/-- Behind its directives, a definition goes on with its block. -/
theorem directives_block {f : List α → β} {ws : List Warning} {c : Cursor}
    (hdirs : Free.Directives (kindsOf dirs)) (ho : o.kind = .punctuator .braceL)
    (hb : ∀ line, block owner p ⟨line, o :: ts⟩ = ⟨ws, c, .ok as⟩) :
    (do
      directives
      let as ← block owner p
      return f as : Parse β) ⟨line, dirs ++ o :: ts⟩ = ⟨ws, c, .ok (f as)⟩ := by
  rw [Reads.followed (directives_reads hdirs (avoids_of_kind ho (by decide))), bind_apply, hb]
  show Outcome.mk (ws ++ []) _ _ = _
  rw [List.append_nil]
  rfl

end Blocks

theorem enum_unclosed {values : List EnumValueDef} (ht : t.kind = .name n)
    (hdirs : Free.Directives (kindsOf dirs)) (ho : o.kind = .punctuator .braceL)
    (hm : Many Free.EnumValue ms values) (hr : Interrupting (lastLine o.line ms) rest) :
    body d .enum ⟨line, t :: (dirs ++ o :: (ms ++ rest))⟩ =
      ⟨[.unclosed n], ⟨lastLine o.line ms, rest⟩, .ok (some (.enum ⟨n, d, values⟩), none)⟩ :=
  (Reads.followed (name_reads ht)).trans
    (directives_block hdirs ho fun _ => enumValueForm.block_unclosed ho hm hr)

theorem input_unclosed {fields : List InputValueDef} (ht : t.kind = .name n)
    (hdirs : Free.Directives (kindsOf dirs)) (ho : o.kind = .punctuator .braceL)
    (hm : Many Free.InputValue ms fields) (hr : Interrupting (lastLine o.line ms) rest) :
    body d .input ⟨line, t :: (dirs ++ o :: (ms ++ rest))⟩ =
      ⟨[.unclosed n], ⟨lastLine o.line ms, rest⟩, .ok (some (.input ⟨n, d, fields⟩), none)⟩ :=
  (Reads.followed (name_reads ht)).trans
    (directives_block hdirs ho fun _ => (inputFieldForm n).block_unclosed ho hm hr)

theorem type_unclosed {fields : List FieldDef} (ht : t.kind = .name n)
    (hi : Free.Interfaces (kindsOf us)) (hdirs : Free.Directives (kindsOf dirs))
    (ho : o.kind = .punctuator .braceL) (hm : Many Free.Field ms fields)
    (hr : Interrupting (lastLine o.line ms) rest) :
    body d .type ⟨line, t :: (us ++ (dirs ++ o :: (ms ++ rest)))⟩ =
      ⟨[.unclosed n], ⟨lastLine o.line ms, rest⟩, .ok (some (.object ⟨n, d, fields⟩), none)⟩ := by
  have hopen : BehindName (dirs ++ o :: (ms ++ rest)) :=
    hdirs.behindName (.inr ⟨o, _, rfl, _, by decide, ho⟩)
  refine (Reads.followed (name_reads ht)).trans ?_
  refine (Reads.followed (implements_reads hi hopen)).trans ?_
  exact directives_block hdirs ho fun _ => (fieldForm n).block_unclosed ho hm hr

/-- A definition without a closing brace is read with its members. -/
theorem definition_unclosed {e : GraphClient.Definition} (h : Unclosed ts e)
    (hr : Interrupting (lastLine line ts) rest) :
    definition ⟨line, ts ++ rest⟩ =
      ⟨[.unclosed e.name], ⟨lastLine line ts, rest⟩, .ok (some e, none)⟩ := by
  cases h with
  | enum hd hk ht hdirs ho hm =>
    simp only [lastLine_append, lastLine_cons, List.append_assoc, List.cons_append] at hr ⊢
    rw [definition_of_keyword hd hk rfl, enum_unclosed ht hdirs ho hm hr]
    rfl
  | type hd hk ht hi hdirs ho hm =>
    simp only [lastLine_append, lastLine_cons, List.append_assoc, List.cons_append] at hr ⊢
    rw [definition_of_keyword hd hk rfl, type_unclosed ht hi hdirs ho hm hr]
    rfl
  | input hd hk ht hdirs ho hm =>
    simp only [lastLine_append, lastLine_cons, List.append_assoc, List.cons_append] at hr ⊢
    rw [definition_of_keyword hd hk rfl, input_unclosed ht hdirs ho hm hr]
    rfl

end Parse

namespace Document

open Parse

/-- An unclosed block does not swallow the next definition. -/
theorem unclosed_interrupted {ts rest : List Token} {d : Definition} (h : Grammar.Unclosed ts d)
    (hr : Grammar.Interrupting (lastLine 0 ts) rest) :
    ofTokens (ts ++ rest) = ⟨d :: (ofTokens rest).definitions,
        .unclosed d.name :: (ofTokens rest).warnings⟩ ∧
      ∀ line, ∃ c, Parse.definitions ⟨line, ts ++ rest⟩ =
        ⟨.unclosed d.name :: (ofTokens rest).warnings, c,
          .ok (d :: (ofTokens rest).definitions)⟩ := by
  have hall : ∀ line, ∃ c, Parse.definitions ⟨line, ts ++ rest⟩ =
      ⟨.unclosed d.name :: (ofTokens rest).warnings, c,
        .ok (d :: (ofTokens rest).definitions)⟩ := by
    intro line
    rw [lastLine_irrel h.ne_nil 0 line] at hr
    have hentry := entry_ok (definition_unclosed h hr)
    have hcont : (!(ts ++ rest).isEmpty) = true := by simp [h.ne_nil]
    obtain ⟨c, hc⟩ := definitions_behind (lastLine line ts) rest
    rw [Parse.definitions] at hc ⊢
    refine ⟨c, ?_⟩
    rw [loop_step hcont hentry (length_lt_append h.ne_nil rest), hc]
    show Outcome.mk ([_] ++ ((ofTokens rest).warnings ++ [])) c _ = _
    rw [List.append_nil]
    rfl
  obtain ⟨c, hc⟩ := hall 0
  exact ⟨ofTokens_eq hc, hall⟩

/-- A type with a field that is named by a keyword, and with no closing brace. -/
def openType : List Token :=
  tokensOn 1 [.name "type", .name "A", .punctuator .braceL] ++
    tokensOn 2 [.name "type", .punctuator .colon, .name "Int"]

def typeBehind : List Token :=
  tokensOn 4 [.name "type", .name "B", .punctuator .braceL] ++
    tokensOn 5 [.name "y", .punctuator .colon, .name "Int"] ++ tokensOn 6 [.punctuator .braceR]

theorem unclosed_interrupted_type :
    let a : Definition := .object ⟨"A", none, [⟨"type", none, .named "Int", []⟩]⟩
    let b : Definition := .object ⟨"B", none, [⟨"y", none, .named "Int", []⟩]⟩
    Grammar.Unclosed openType a ∧ Grammar.Interrupting (lastLine 0 openType) typeBehind ∧
      ofTokens typeBehind = ⟨[b], []⟩ ∧
      ofTokens (openType ++ typeBehind) = ⟨[a, b], [.unclosed "A"]⟩ := by
  intro a b
  have hfield : Grammar.Many Grammar.Free.Field (openType.drop 3) _ :=
    @Grammar.Many.cons _ _ _ [] _ _ (field_annotated 2 "type" "Int") .nil
  have ha : Grammar.Unclosed openType a :=
    @Grammar.Unclosed.type [] [] [] _ _ _ _ none "A" _ .none rfl rfl .none .nil rfl hfield
  have hb : Grammar.Interrupting (lastLine 0 openType) typeBehind :=
    @Grammar.Interrupting.mk _ [] _ _ _ none "type" "B" .none rfl (by simp [Grammar.Plain]; decide)
      rfl rfl (by decide) (by decide)
  have halone : ofTokens typeBehind = ⟨[b], []⟩ := by cbv
  obtain ⟨hall, -⟩ := unclosed_interrupted ha hb
  rw [halone] at hall
  exact ⟨ha, hb, halone, hall⟩

end Document

end GraphClient
