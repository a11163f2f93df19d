import Mathlib.Data.List.Basic
import GraphClient.Proofs.Document.Annotations
import GraphClient.Proofs.Document.Definitions

/-!
# A malformed member costs only itself

Behind an issue on a line, the reader of a block passes over the rest of that line if the brackets
that it opens there are closed there (`Settles`, `seekMember_settles`), and stops at the next
member or at the end of the block. So the members before and behind a malformed one are read as if
it were not there (`block_skips`).
-/

namespace GraphClient

/-- From a depth on, the brackets of some tokens are closed again, with no closing brace outside
of them. -/
def Settles : Nat → List Token → Prop
  | depth, [] => depth = 0
  | depth, t :: ts => (depth = 0 → t.is .braceR = false) ∧ Settles (t.nest depth) ts

instance decidableSettles : (depth : Nat) → (ts : List Token) → Decidable (Settles depth ts)
  | depth, [] => inferInstanceAs (Decidable (depth = 0))
  | depth, t :: ts =>
    have := decidableSettles (t.nest depth) ts
    inferInstanceAs (Decidable ((depth = 0 → t.is .braceR = false) ∧ Settles (t.nest depth) ts))

namespace Cursor

variable {failed depth line : Nat} {t : Token} {ts rest : List Token}

/-- No member starts on the line of the issue. -/
theorem seekMember_settles (h : Settles depth ts) (hl : ∀ t ∈ ts, t.line ≤ failed) :
    seekMember failed depth line (ts ++ rest) = seekMember failed 0 (lastLine line ts) rest := by
  induction ts generalizing depth line with
  | nil =>
    cases h
    rfl
  | cons t ts ih =>
    obtain ⟨hb, hs⟩ := h
    rw [List.forall_mem_cons] at hl
    have hgo : ¬ (depth = 0 ∧
        (t.is .braceR = true ∨ failed < t.line ∧ (t.isName = true ∨ t.isString = true))) := by
      rintro ⟨hd, hr | ⟨hlt, -⟩⟩
      · rw [hb hd] at hr
        cases hr
      · exact absurd hlt (Nat.not_lt.mpr hl.1)
    rw [List.cons_append, seekMember, if_neg hgo, ih hs hl.2, lastLine_cons]

theorem seekMember_member (hl : failed < t.line) (ht : t.isName = true ∨ t.isString = true) :
    seekMember failed 0 line (t :: ts) = ⟨line, t :: ts⟩ := by
  rw [seekMember, if_pos ⟨rfl, .inr ⟨hl, ht⟩⟩]

theorem seekMember_closing (ht : t.kind = .punctuator .braceR) :
    seekMember failed 0 line (t :: ts) = ⟨line, t :: ts⟩ := by
  rw [seekMember, if_pos ⟨rfl, .inl (Token.is_iff.mpr ht)⟩]

end Cursor

namespace Parse

open Grammar

variable {α : Type} {p : Parse α} {P : List Token → α → Prop} {owner : String} {line : Nat}
  {ts b rest : List Token} {as bs : List α} {i : Issue}

/-! ## Members of a block -/

/-- A member starts with a name or a string. -/
theorem MemberForm.head {a : α} (hf : MemberForm p P) (h : P ts a) :
    ∃ t us, ts = t :: us ∧ (t.isName = true ∨ t.isString = true) := by
  obtain ⟨ds, d, t, n, vs, rfl, hd, ht⟩ := hf.shape h
  cases hd with
  | none => exact ⟨t, vs, rfl, .inl (by simp [Token.isName, Token.name?_eq_some.mpr ht])⟩
  | @string u s hs => exact ⟨u, t :: vs, rfl, .inr (by simp [Token.isString, hs])⟩

/-- Members are read in front of whatever the loop goes on with. -/
theorem MemberForm.loop_members (owner : String) {d : Cursor} {ws : List Warning}
    (hf : MemberForm p P)
    (h : Many P ts as) (hr : Avoids [.bang, .equals, .atSign, .parenL] rest)
    (hl : loop continuesBlock (member owner p) ⟨lastLine line ts, rest⟩ = ⟨ws, d, .ok bs⟩) :
    loop continuesBlock (member owner p) ⟨line, ts ++ rest⟩ = ⟨ws, d, .ok (as ++ bs)⟩ := by
  induction h generalizing line with
  | nil => exact hl
  | @cons us vs a as ha hm ih =>
    have hv : Avoids [.bang, .equals, .atSign, .parenL] (vs ++ rest) := by
      cases hm with
      | nil => exact hr
      | cons hb _ =>
        rw [List.append_assoc]
        exact hf.avoids hb
    have hread : member owner p ⟨line, us ++ (vs ++ rest)⟩ =
        ⟨[], ⟨lastLine line us, vs ++ rest⟩, .ok (some a)⟩ :=
      member_reads (hf.reads ha hv)
    have hlt := length_lt_append (hf.ne_nil ha) (vs ++ rest)
    rw [lastLine_append] at hl
    rw [List.append_assoc, loop_step (hf.continues ha) hread hlt, ih hl]
    show Outcome.mk ([] ++ (ws ++ [])) d _ = _
    rw [List.nil_append, List.append_nil]
    rfl

/-- A block whose loop is read goes on to its closing brace. -/
theorem block_of_loop {o : Token} {ws : List Warning} {d : Cursor}
    (ho : o.kind = .punctuator .braceL)
    (hl : loop continuesBlock (member owner p) ⟨o.line, ts⟩ = ⟨ws, d, .ok as⟩) :
    block owner p ⟨line, o :: ts⟩ = (((accept .braceR) d).andThen fun closed =>
      if !closed then warn (.unclosed owner) >>= fun _ => pure as else pure as).withEarlier ws := by
  rw [block, bind_apply, accept_of_nextIs (nextIs_cons ho), Outcome.andThen_ok, if_pos rfl,
    Outcome.withEarlier_nil]
  exact congrArg (Outcome.andThen · _) hl

theorem block_closed {o c : Token} {ws : List Warning} {l : Nat} (ho : o.kind = .punctuator .braceL)
    (hl : loop continuesBlock (member owner p) ⟨o.line, ts⟩ = ⟨ws, ⟨l, c :: rest⟩, .ok as⟩)
    (hc : c.kind = .punctuator .braceR) :
    block owner p ⟨line, o :: ts⟩ = ⟨ws, ⟨c.line, rest⟩, .ok as⟩ := by
  rw [block_of_loop ho hl, accept_of_nextIs (nextIs_cons hc), Outcome.andThen_ok,
    Outcome.withEarlier_nil]
  show Outcome.mk (ws ++ []) _ _ = _
  rw [List.append_nil]
  rfl

/-! ## Malformed members -/

/-- Tokens on one line that start like a member and are not taken for a definition, but on one
of which the reader of members stops, in front of `rest`. -/
structure Malformed (p : Parse α) (line : Nat) (b rest : List Token) (i : Issue) : Prop where
  starts : ∃ t ∈ b.head?, t.isName = true ∨ t.isString = true
  sameLine : ∀ t ∈ b, ∀ u ∈ b, t.line = u.line
  goesOn : interruptsBlock ⟨line, b ++ rest⟩ = false
  fails : (p ⟨line, b ++ rest⟩).result = .error i
  /-- The reader stops at a token of its own, from which on all brackets are closed. -/
  stops : ∃ read t left, b = read ++ t :: left ∧
    (p ⟨line, b ++ rest⟩).cursor.rest = t :: left ++ rest ∧ Settles 0 (t :: left)

namespace Malformed

theorem continues (h : Malformed p line b rest i) : continuesBlock ⟨line, b ++ rest⟩ = true := by
  obtain ⟨t, ht, hstart⟩ := h.starts
  obtain ⟨us, rfl⟩ := List.head?_eq_some_iff.mp ht
  have hb : t.is .braceR = false := by
    refine Token.is_eq_false fun e => ?_
    simp [Token.isName, Token.name?, Token.isString, Token.string?, e] at hstart
  have hgo : interruptsBlock ⟨line, t :: (us ++ rest)⟩ = false := h.goesOn
  rw [continuesBlock, List.cons_append, hgo, continuesUntil_of_head hb]
  rfl

theorem ne_nil (h : Malformed p line b rest i) : b ≠ [] := by
  rintro rfl
  obtain ⟨t, ht, -⟩ := h.starts
  cases ht

theorem avoids {ps : List Punctuator} (h : Malformed p line b rest i) : Avoids ps (b ++ rest) := by
  obtain ⟨t, ht, hstart⟩ := h.starts
  obtain ⟨us, rfl⟩ := List.head?_eq_some_iff.mp ht
  rw [List.cons_append, avoids_cons]
  rintro q - e
  simp [Token.isName, Token.name?, Token.isString, Token.string?, e] at hstart

/-- The issue is found at a token of the member, and the next member or the end of the block is
sought from there. -/
theorem toMember_skips {W : Warning → Prop} (h : Malformed p line b rest i)
    (hp : ReportsAt b rest W p ⟨line, b ++ rest⟩)
    (hn : ∃ t us, rest = t :: us ∧ (t.kind = .punctuator .braceR ∨
      (t.isName = true ∨ t.isString = true) ∧ ∀ u ∈ b, u.line < t.line)) :
    (p ⟨line, b ++ rest⟩).cursor.toMember i.line = ⟨lastLine line b, rest⟩ := by
  obtain ⟨read, t, left, hb, hrest, hsettles⟩ := h.stops
  obtain ⟨us, hpass, hline⟩ := hp.passes
  have hfound := hp.found i h.fails
  rw [hrest] at hpass hfound
  have hissue : i.line = t.line := by
    rw [Issue.line, hfound]
    rfl
  have hread : us = read := by
    rw [hb, List.append_assoc] at hpass
    exact (List.append_cancel_right hpass).symm
  have ht : t ∈ b := by rw [hb]; simp
  have hl : ∀ u ∈ t :: left, u.line ≤ t.line := fun u hu =>
    Nat.le_of_eq (h.sameLine u (by rw [hb]; exact List.mem_append_right _ hu) t ht)
  rw [Cursor.toMember, hrest, hissue, Cursor.seekMember_settles hsettles hl, hline, hread,
    ← lastLine_append, ← hb]
  obtain ⟨u, vs, rfl, hu | ⟨hu, hlt⟩⟩ := hn
  · exact Cursor.seekMember_closing hu
  · exact Cursor.seekMember_member (hlt t ht) hu

/-- A malformed member is passed over up to the next member or to the end of the block. -/
theorem member_skips (owner : String) {W : Warning → Prop} (h : Malformed p line b rest i)
    (hp : ReportsAt b rest W p ⟨line, b ++ rest⟩)
    (hn : ∃ t us, rest = t :: us ∧ (t.kind = .punctuator .braceR ∨
      (t.isName = true ∨ t.isString = true) ∧ ∀ u ∈ b, u.line < t.line)) :
    ∃ ws, member owner p ⟨line, b ++ rest⟩ =
      ⟨ws ++ [.malformed (some owner) i], ⟨lastLine line b, rest⟩, .ok none⟩ ∧ ∀ w ∈ ws, W w := by
  have hskip := h.toMember_skips hp hn
  have hfails := h.fails
  have hwarns : ∀ w ∈ (p ⟨line, b ++ rest⟩).warnings, W w := by
    obtain ⟨read, t, left, -, hrest, -⟩ := h.stops
    exact hp.warns List.suffix_rfl (hrest ▸ List.suffix_append _ _)
  rcases hrun : p ⟨line, b ++ rest⟩ with ⟨ws, d, r⟩
  rw [hrun] at hskip hfails hwarns
  cases hfails
  refine ⟨ws, ?_, hwarns⟩
  simp only [member, hrun]
  rw [← hskip]

end Malformed

/-- A block is read without its malformed member. -/
theorem MemberForm.block_skips {W : Warning → Prop} {o c : Token} {ms ns : List Token}
    (hf : MemberForm p P) (hp : Reports b (ns ++ c :: rest) W p)
    (ho : o.kind = .punctuator .braceL) (hm : Many P ms as)
    (hb : Malformed p (lastLine o.line ms) b (ns ++ c :: rest) i) (hn : Many P ns bs)
    (hnext : ∀ t ∈ ns.head?, ∀ u ∈ b, u.line < t.line) (hc : c.kind = .punctuator .braceR) :
    ∃ ws, block owner p ⟨line, o :: (ms ++ (b ++ (ns ++ c :: rest)))⟩ =
      ⟨ws ++ [.malformed (some owner) i], ⟨c.line, rest⟩, .ok (as ++ bs)⟩ ∧ ∀ w ∈ ws, W w := by
  obtain ⟨ws, hskip, hws⟩ := hb.member_skips owner (hp _) <| by
    cases hn with
    | nil => exact ⟨c, rest, rfl, .inl hc⟩
    | cons ha _ =>
      obtain ⟨t, us, rfl, ht⟩ := hf.head ha
      exact ⟨t, _, rfl, .inr ⟨ht, hnext t rfl⟩⟩
  have hbehind : loop continuesBlock (member owner p)
      ⟨lastLine (lastLine o.line ms) b, ns ++ c :: rest⟩ =
        ⟨[], ⟨lastLine (lastLine (lastLine o.line ms) b) ns, c :: rest⟩, .ok bs⟩ :=
    (hf.members hn (avoids_of_kind hc (by decide)) fun _ => continuesBlock_closing hc).reads
  have hlt := length_lt_append hb.ne_nil (ns ++ c :: rest)
  have hfrom : loop continuesBlock (member owner p)
      ⟨lastLine o.line ms, b ++ (ns ++ c :: rest)⟩ =
        ⟨ws ++ [.malformed (some owner) i],
          ⟨lastLine (lastLine (lastLine o.line ms) b) ns, c :: rest⟩, .ok bs⟩ := by
    rw [loop_step hb.continues hskip hlt, hbehind]
    show Outcome.mk ((ws ++ [_]) ++ []) _ _ = _
    rw [List.append_nil]
    rfl
  exact ⟨ws, block_closed ho (hf.loop_members owner hm hb.avoids hfrom) hc, hws⟩

/-- The blocks of types, inputs and enums: how a member is read, and which members are well
formed. -/
inductive BlockOf (owner : String) :
    {α : Type} → Parse α → (List Token → α → Prop) → Prop where
  | type : BlockOf owner (field owner) Free.Field
  | input : BlockOf owner (inputField owner) Free.InputValue
  | enum : BlockOf owner enumValue Free.EnumValue

theorem BlockOf.form (h : BlockOf owner p P) : MemberForm p P := by
  cases h
  · exact fieldForm owner
  · exact inputFieldForm owner
  · exact enumValueForm

theorem BlockOf.reports (h : BlockOf owner p P) : Reports b rest (Unannotated owner b) p := by
  cases h
  · exact reports_field owner
  · exact reports_inputField owner
  · exact reports_enumValue

/-- A malformed member costs only itself: the members before and behind it are read, the block ends
with its own brace, and besides the issue only annotations are missed. -/
theorem block_sheds_malformed {o c : Token} {ms ns : List Token} (h : BlockOf owner p P)
    (ho : o.kind = .punctuator .braceL) (hm : Many P ms as)
    (hb : Malformed p (lastLine o.line ms) b (ns ++ c :: rest) i) (hn : Many P ns bs)
    (hnext : ∀ t ∈ ns.head?, ∀ u ∈ b, u.line < t.line) (hc : c.kind = .punctuator .braceR) :
    ∃ ws, block owner p ⟨line, o :: (ms ++ (b ++ (ns ++ c :: rest)))⟩ =
      ⟨ws ++ [.malformed (some owner) i], ⟨c.line, rest⟩, .ok (as ++ bs)⟩ ∧
        ∀ w ∈ ws, Unannotated owner b w :=
  h.form.block_skips h.reports ho hm hb hn hnext hc

/-- Tokens on one line. -/
def tokensOn (line : Nat) (kinds : List TokenKind) : List Token :=
  kinds.map fun k => ⟨⟨k, ⟨line, 1⟩⟩, [], []⟩

theorem field_annotated (line : Nat) (n type : String) :
    Free.Field (tokensOn line [.name n, .punctuator .colon, .name type])
      ⟨n, none, .named type, []⟩ :=
  @Free.Field.mk [] [] (tokensOn line [.name type]) [] _ _ none n [] (.named type) .none rfl .none
    rfl rfl trivial .nil

/-- A field with an argument that has no annotation, and one whose list type is not closed. -/
def brokenField : List Token :=
  tokensOn 3 [.name "broken", .punctuator .parenL, .name "a", .name "b", .punctuator .colon,
    .punctuator .bracketL, .name "Int", .punctuator .parenR, .punctuator .colon, .name "Int"]

def brokenIssue : Issue := ⟨some ⟨.punctuator .parenR, ⟨3, 1⟩⟩, .text "]"⟩

theorem block_sheds_malformed_field :
    let ms := tokensOn 2 [.name "ok", .punctuator .colon, .name "String"]
    let ns := tokensOn 4 [.name "fine", .punctuator .colon, .name "Int"]
    let close := tokensOn 5 [.punctuator .braceR]
    Malformed (field "A") 2 brokenField (ns ++ close) brokenIssue ∧
      ∃ ws, block "A" (field "A")
          ⟨1, tokensOn 1 [.punctuator .braceL] ++ (ms ++ (brokenField ++ (ns ++ close)))⟩ =
        ⟨ws ++ [.malformed (some "A") brokenIssue], ⟨5, []⟩,
          .ok [⟨"ok", none, .named "String", []⟩, ⟨"fine", none, .named "Int", []⟩]⟩ ∧
        ∀ w ∈ ws, Unannotated "A" brokenField w := by
  intro ms ns close
  have hb : Malformed (field "A") 2 brokenField (ns ++ close) brokenIssue := by
    refine ⟨⟨_, rfl, .inl rfl⟩, by decide, by cbv, by cbv, ?_⟩
    exact ⟨brokenField.take 7, _, brokenField.drop 8, by cbv, by cbv, by decide⟩
  exact ⟨hb, block_sheds_malformed .type rfl (.cons (field_annotated 2 _ _) .nil) hb
    (.cons (field_annotated 4 _ _) .nil) (by decide) rfl⟩

end Parse

end GraphClient
