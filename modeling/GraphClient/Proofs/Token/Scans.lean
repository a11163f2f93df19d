import GraphClient.Token.Lexer

/-!
# What a text is tokenised to

`Scans rest s a ts s'`: in front of `rest`, from the spot `s`, the text `a` is read as the
tokens `ts` and leaves the spot `s'`. Each token and each ignored stretch is read with all that
follows in view, so scanned texts may be put together (`Scans.append`), and `lexFrom` passes
over them (`Scans.lexFrom`). No token lies outside of the lines of its text (`Scans.lines`).
-/

namespace GraphClient

/-- Where a text starts, and what was ignored right before it. -/
structure Spot where
  gap : Source
  place : Place

/-- The spot behind an ignored stretch. -/
def Spot.skip (s : Spot) (cells : Source) : Spot := ⟨s.gap ++ cells, s.place.after cells⟩

/-- The spot behind a token. -/
def Spot.past (s : Spot) (lexeme : Source) : Spot := ⟨[], s.place.after lexeme⟩

/-- The token that starts at a spot. -/
def Spot.token (s : Spot) (kind : TokenKind) (lexeme : Source) : Token :=
  ⟨⟨kind, s.place⟩, s.gap, lexeme⟩

inductive Scans (rest : Source) : Spot → Source → List Token → Spot → Prop where
  | done {s : Spot} : Scans rest s [] [] s
  | ignored {s s' : Spot} {c : Cell} {cells more : Source} {ts : List Token} :
      read c (cells ++ (more ++ rest)) = .ignored cells.length →
      Scans rest (s.skip (c :: cells)) more ts s' → Scans rest s (c :: (cells ++ more)) ts s'
  | token {s s' : Spot} {kind : TokenKind} {c : Cell} {cells more : Source} {ts : List Token} :
      read c (cells ++ (more ++ rest)) = .token kind cells.length →
      Scans rest (s.past (c :: cells)) more ts s' →
      Scans rest s (c :: (cells ++ more)) (s.token kind (c :: cells) :: ts) s'

namespace Scans

variable {rest a b : Source} {s s' s'' : Spot} {ts us : List Token} {c : Cell} {cells : Source}

theorem append (h : Scans (b ++ rest) s a ts s') (h' : Scans rest s' b us s'') :
    Scans rest s (a ++ b) (ts ++ us) s'' := by
  induction h with
  | done => exact h'
  | ignored hr _ ih =>
    rw [List.cons_append, List.append_assoc]
    exact .ignored (by rwa [List.append_assoc]) (ih h')
  | token hr _ ih =>
    rw [List.cons_append, List.append_assoc, List.cons_append]
    exact .token (by rwa [List.append_assoc]) (ih h')

/-- One ignored stretch. -/
theorem gap (h : read c (cells ++ rest) = .ignored cells.length) :
    Scans rest s (c :: cells) [] (s.skip (c :: cells)) := by
  have hs := @Scans.ignored rest s _ c cells [] [] h .done
  rwa [List.append_nil] at hs

/-- One token. -/
theorem lexeme {kind : TokenKind} (h : read c (cells ++ rest) = .token kind cells.length) :
    Scans rest s (c :: cells) [s.token kind (c :: cells)] (s.past (c :: cells)) := by
  have hs := @Scans.token rest s _ kind c cells [] [] h .done
  rwa [List.append_nil] at hs

end Scans

section LexFrom

variable {gap rest : Source} {position : Nat} {place : Place} {c : Cell} {cells : Source}

theorem lexFrom_ignored (h : read c (cells ++ rest) = .ignored cells.length) :
    lexFrom gap position place (c :: (cells ++ rest)) =
      lexFrom (gap ++ c :: cells) (position + Source.width (c :: cells)) (place.after (c :: cells))
        rest := by
  rw [lexFrom, h]
  simp only [List.take_left, List.drop_left]

theorem lexFrom_token {kind : TokenKind}
    (h : read c (cells ++ rest) = .token kind cells.length) :
    lexFrom gap position place (c :: (cells ++ rest)) =
      let later := lexFrom [] (position + Source.width (c :: cells)) (place.after (c :: cells)) rest
      ⟨⟨⟨kind, place⟩, gap, c :: cells⟩ :: later.tokens, later.fault⟩ := by
  rw [lexFrom, h]
  simp only [List.take_left, List.drop_left]

end LexFrom

/-- Tokenising passes over a scanned text and goes on from the spot behind it. -/
theorem Scans.lexFrom {rest a : Source} {s s' : Spot} {ts : List Token}
    (h : Scans rest s a ts s') (position : Nat) :
    lexFrom s.gap position s.place (a ++ rest) =
      let later := GraphClient.lexFrom s'.gap (position + a.width) s'.place rest
      ⟨ts ++ later.tokens, later.fault⟩ := by
  induction h generalizing position with
  | done => rfl
  | @ignored s s' c cells more ts hr _ ih =>
    rw [List.cons_append, List.append_assoc, lexFrom_ignored hr, ← List.cons_append,
      Source.width_append, ← Nat.add_assoc]
    exact ih _
  | @token s s' kind c cells more ts hr _ ih =>
    have ih := ih (position + Source.width (c :: cells))
    simp only [Spot.past] at ih
    rw [List.cons_append, List.append_assoc, lexFrom_token hr, ih, ← List.cons_append,
      Source.width_append, ← Nat.add_assoc]
    rfl

/-! ## Lines -/

theorem Place.line_le_after (p : Place) (cells : Source) : p.line ≤ (p.after cells).line := by
  fun_induction Place.after p cells with
  | case1 p => exact Nat.le_refl _
  | case2 p rest ih => exact Nat.le_trans (Nat.le_succ _) ih
  | case3 p c rest _ _ ih => exact Nat.le_trans (Nat.le_succ _) ih
  | case4 p c rest _ _ ih => exact ih

/-- Whether a cell ends a line, alone or with the next one. -/
def Cell.isBreak (c : Cell) : Bool := c.satisfies isLineBreak

theorem Place.line_after {p : Place} {cells : Source} (h : ∀ c ∈ cells, c.isBreak = false) :
    (p.after cells).line = p.line := by
  fun_induction Place.after p cells with
  | case1 p => rfl
  | case2 p rest ih => exact absurd (h _ List.mem_cons_self) (by decide)
  | case3 p c rest _ hc ih =>
    have hb := h c List.mem_cons_self
    rcases hc with rfl | rfl <;> exact absurd hb (by decide)
  | case4 p c rest _ _ ih => exact ih fun d hd => h d (List.mem_cons_of_mem c hd)

theorem Scans.lines {rest a : Source} {s s' : Spot} {ts : List Token} (h : Scans rest s a ts s') :
    s.place.line ≤ s'.place.line ∧
      ∀ t ∈ ts, s.place.line ≤ t.line ∧ t.line ≤ s'.place.line := by
  induction h with
  | done => exact ⟨Nat.le_refl _, fun _ ht => by cases ht⟩
  | @ignored s s' c cells more ts _ _ ih =>
    have hl : s.place.line ≤ (s.skip (c :: cells)).place.line := Place.line_le_after _ _
    exact ⟨Nat.le_trans hl ih.1, fun t ht => ⟨Nat.le_trans hl (ih.2 t ht).1, (ih.2 t ht).2⟩⟩
  | @token s s' kind c cells more ts _ _ ih =>
    have hl : s.place.line ≤ (s.past (c :: cells)).place.line := Place.line_le_after _ _
    refine ⟨Nat.le_trans hl ih.1, fun t ht => ?_⟩
    rcases List.mem_cons.mp ht with rfl | ht
    · exact ⟨Nat.le_refl _, Nat.le_trans hl ih.1⟩
    · exact ⟨Nat.le_trans hl (ih.2 t ht).1, (ih.2 t ht).2⟩

/-- A text without line breaks ends on its line. -/
theorem Scans.same_line {rest a : Source} {s s' : Spot} {ts : List Token}
    (h : Scans rest s a ts s') (hl : ∀ c ∈ a, c.isBreak = false) :
    s'.place.line = s.place.line := by
  induction h with
  | done => rfl
  | @ignored s s' c cells more ts _ _ ih =>
    have hfront : (s.skip (c :: cells)).place.line = s.place.line :=
      Place.line_after fun d hd => hl d (List.mem_append_left more hd)
    rw [ih fun d hd => hl d (List.mem_cons_of_mem c (List.mem_append_right cells hd)), hfront]
  | @token s s' kind c cells more ts _ _ ih =>
    have hfront : (s.past (c :: cells)).place.line = s.place.line :=
      Place.line_after fun d hd => hl d (List.mem_append_left more hd)
    rw [ih fun d hd => hl d (List.mem_cons_of_mem c (List.mem_append_right cells hd)), hfront]

end GraphClient
