import GraphClient.Proofs.Token.Faultless

/-!
# Texts further down

An `Offset` says how far down another text a text begins: in lines and in units. Its tokens and
faults are the same there, further down (`lexFrom_copies`), but the gap before its first token
may begin earlier. A text without faults and a line feed may be put before any text without
changing how that is tokenised, its faults included (`tokenize_behind`).
-/

namespace GraphClient

structure Offset where
  lines : Nat
  units : Nat

/-- The end of a text that begins at the start. -/
def Offset.behind (cells : Source) : Offset :=
  ⟨(Place.start.after cells).line - 1, cells.width⟩

def Place.down (o : Offset) (p : Place) : Place := ⟨p.line + o.lines, p.column⟩

def Occurrence.down (o : Offset) (t : Occurrence) : Occurrence := ⟨t.kind, t.place.down o⟩

def Token.down (o : Offset) (t : Token) : Token := ⟨t.toOccurrence.down o, t.gap, t.lexeme⟩

def Fault.down (o : Offset) (f : Fault) : Fault := ⟨f.cause, f.position + o.units, f.place.down o⟩

/-- A token further down, perhaps behind another gap. -/
structure Token.Copy (o : Offset) (t t' : Token) : Prop where
  occurrence : t'.toOccurrence = t.toOccurrence.down o
  lexeme : t'.lexeme = t.lexeme

theorem Token.Copy.kind {o : Offset} {t t' : Token} (h : t.Copy o t') : t'.kind = t.kind :=
  congrArg (·.kind) h.occurrence

theorem Token.Copy.line {o : Offset} {t t' : Token} (h : t.Copy o t') :
    t'.line = t.line + o.lines := congrArg (·.place.line) h.occurrence

/-- Tokens further down, the first perhaps behind another gap, with other tokens behind them. -/
inductive Copies (o : Offset) (us : List Token) : List Token → List Token → Prop where
  | nil : Copies o us [] us
  | cons {t t' : Token} {ts : List Token} :
    t.Copy o t' → Copies o us (t :: ts) (t' :: (ts.map (Token.down o) ++ us))

section Copies

variable {o : Offset} {us ts ts' : List Token}

theorem Token.copy_down (t : Token) : t.Copy o (t.down o) := ⟨rfl, rfl⟩

theorem copies_map (ts : List Token) : Copies o us ts (ts.map (Token.down o) ++ us) := by
  cases ts with
  | nil => exact .nil
  | cons t ts => exact .cons t.copy_down

theorem Copies.length (h : Copies o us ts ts') : ts'.length = ts.length + us.length := by
  cases h with
  | nil => simp
  | cons => simp; omega

/-- Tokens are copies of themselves where nothing is moved. -/
theorem copies_append (ts us : List Token) : Copies ⟨0, 0⟩ us ts (ts ++ us) := by
  have hm : ts.map (Token.down ⟨0, 0⟩) = ts := List.map_id _
  have hc := @copies_map ⟨0, 0⟩ us ts
  rwa [hm] at hc

end Copies

/-! ## Places -/

section Places

variable {o : Offset} {p : Place} {cells : Source}

theorem Place.after_down : (p.down o).after cells = (p.after cells).down o := by
  have hn : ∀ q : Place, (q.down o).nextLine = q.nextLine.down o := fun q => by
    unfold nextLine down
    rw [Nat.add_right_comm]
  fun_induction Place.after p cells with
  | case1 p => rfl
  | case2 p rest ih =>
    rw [Place.after, hn]
    exact ih
  | case3 p c rest hcr hc ih =>
    rw [Place.after, if_pos hc, hn]
    · exact ih
    · exact hcr
  | case4 p c rest hcr hc ih =>
    rw [Place.after, if_neg hc]
    · exact ih
    · exact hcr

/-- A line feed ends a text at the start of a line. -/
theorem start_down_behind (cells : Source) :
    Place.start.down (.behind (cells ++ [.whole '\n'])) =
      Place.start.after (cells ++ [.whole '\n']) := by
  have hl : 1 ≤ (Place.start.after (cells ++ [.whole '\n'])).line :=
    Place.line_le_after Place.start _
  have hc := after_line Place.start cells
  refine Place.mk.injEq .. |>.mpr ⟨?_, hc.symm⟩
  show 1 + ((Place.start.after (cells ++ [.whole '\n'])).line - 1) = _
  omega

end Places

/-! ## Tokens -/

section Tokens

variable {o : Offset} {gap : Source} {position : Nat} {place : Place} {cells : Source}

theorem lexFrom_down : lexFrom gap (position + o.units) (place.down o) cells =
    ⟨(lexFrom gap position place cells).tokens.map (Token.down o),
      (lexFrom gap position place cells).fault.map (Fault.down o)⟩ := by
  fun_induction lexFrom gap position place cells with
  | case1 => rw [lexFrom]; rfl
  | case2 gap position place c cells cause passed hread before =>
    rw [lexFrom, hread]
    simp only [List.map_nil, Option.map_some, Fault.down, Place.after_down, before]
    rw [Nat.add_right_comm]
  | case3 gap position place c cells n hread text ih =>
    rw [lexFrom, hread]
    simp only [Nat.add_right_comm position o.units, Place.after_down]
    exact ih
  | case4 gap position place c cells kind n hread lexeme later ih =>
    rw [lexFrom, hread]
    simp only [Nat.add_right_comm position o.units, Place.after_down]
    simp only [lexeme, later] at ih ⊢
    rw [ih]
    rfl

theorem lexFrom_copies (gap' : Source) :
    Copies o [] (lexFrom gap position place cells).tokens
        (lexFrom gap' (position + o.units) (place.down o) cells).tokens ∧
      (lexFrom gap' (position + o.units) (place.down o) cells).fault =
        (lexFrom gap position place cells).fault.map (Fault.down o) := by
  fun_induction lexFrom gap position place cells generalizing gap' with
  | case1 => rw [lexFrom]; exact ⟨.nil, rfl⟩
  | case2 gap position place c cells cause passed hread before =>
    rw [lexFrom, hread]
    simp only [Option.map_some, Fault.down, Place.after_down, before]
    rw [Nat.add_right_comm]
    exact ⟨.nil, rfl⟩
  | case3 gap position place c cells n hread text ih =>
    rw [lexFrom, hread]
    simp only [Nat.add_right_comm position o.units, Place.after_down]
    exact ih _
  | case4 gap position place c cells kind n hread lexeme later ih =>
    rw [lexFrom, hread]
    simp only [Nat.add_right_comm position o.units, Place.after_down]
    rw [lexFrom_down]
    refine ⟨?_, rfl⟩
    rw [← List.append_nil (List.map _ _)]
    exact .cons ⟨rfl, rfl⟩

end Tokens

/-! ## Faults -/

namespace Source

variable {a cells : Source} {position : Nat}

theorem width_cons (c : Cell) (cells : Source) : width (c :: cells) = c.width + width cells := rfl

theorem width_pos (c : Cell) : 0 < c.width := by
  cases c with
  | whole c => exact Text.unitCount_pos c
  | half c => exact Nat.one_pos

/-- A position behind a text with one more cell in front is not at that cell. -/
theorem behind_cons (c : Cell) :
    position + width (c :: a) = position + width a + (c.width - 1) + 1 := by
  have hw := width_pos c
  rw [width_cons]
  omega

theorem cellAt?_behind : cellAt? (a ++ cells) (position + a.width) = cellAt? cells position := by
  induction a with
  | nil => rfl
  | cons c a ih =>
    rw [List.cons_append, behind_cons, cellAt?, ← ih]
    congr 1
    have hw := width_pos c
    omega

theorem blank_behind : blank (a ++ cells) (position + a.width) = a ++ blank cells position := by
  induction a with
  | nil => rfl
  | cons c a ih =>
    rw [List.cons_append, List.cons_append, behind_cons, blank, ← ih]
    congr 2
    have hw := width_pos c
    omega

end Source

section Tokenize

variable {cells : Source} {fault : Fault}

theorem tokenize_faultless (h : (lex cells).fault = none) :
    tokenize cells = ⟨cells, (lex cells).tokens, []⟩ := by
  rw [tokenize, h]

/-- A fault where nothing is left to blank ends the text. -/
theorem tokenize_stops (h : (lex cells).fault = some fault)
    (hc : ∀ c ∈ cells.cellAt? fault.position, c.isVisible = false) :
    tokenize cells = ⟨cells, (lex cells).tokens, [fault]⟩ := by
  rw [tokenize]
  simp only [h]
  split
  · rfl
  · rename_i c hat
    rw [if_neg (by simp [hc c hat])]

theorem tokenize_blanks {c : Cell} (h : (lex cells).fault = some fault)
    (hat : cells.cellAt? fault.position = some c) (hc : c.isVisible = true) :
    tokenize cells =
      let later := tokenize (cells.blank fault.position)
      ⟨later.text, later.tokens, fault :: later.faults⟩ := by
  rw [tokenize]
  simp only [h]
  split
  · rename_i hn
    rw [hn] at hat
    cases hat
  · rename_i d hd
    rw [hd] at hat
    cases hat
    rw [if_pos hc]

/-- A text is tokenised the same behind another one that is scanned. -/
theorem tokenize_behind {a : Source} {ts : List Token} {s : Spot} {o : Offset}
    (ha : ∀ rest, Scans rest ⟨[], Place.start⟩ a ts s) (hp : s.place = Place.start.down o)
    (hw : a.width = o.units) (cells : Source) :
    ∃ us, (tokenize (a ++ cells)).tokens = ts ++ us ∧ Copies o [] (tokenize cells).tokens us ∧
      (tokenize (a ++ cells)).faults = (tokenize cells).faults.map (Fault.down o) := by
  have hlex : ∀ cells, ∃ us, (lex (a ++ cells)).tokens = ts ++ us ∧
      Copies o [] (lex cells).tokens us ∧
        (lex (a ++ cells)).fault = (lex cells).fault.map (Fault.down o) := by
    intro cells
    have hl : lex (a ++ cells) = _ := (ha cells).lexFrom 0
    obtain ⟨hc, hf⟩ := @lexFrom_copies o [] 0 Place.start cells s.gap
    rw [← hp, ← hw] at hc hf
    rw [hl]
    exact ⟨_, rfl, hc, hf⟩
  have hat : ∀ (cells : Source) (f : Fault),
      (a ++ cells).cellAt? (f.down o).position = cells.cellAt? f.position := fun cells f => by
    rw [Fault.down, ← hw, Source.cellAt?_behind]
  fun_induction tokenize cells with
  | case1 cells hn =>
    obtain ⟨us, ht, hc, hf⟩ := hlex cells
    rw [hn] at hf
    rw [tokenize_faultless hf]
    exact ⟨us, ht, hc, rfl⟩
  | case2 cells fault hs hcell =>
    obtain ⟨us, ht, hc, hf⟩ := hlex cells
    rw [hs] at hf
    have hstop : ∀ d ∈ (a ++ cells).cellAt? (fault.down o).position, d.isVisible = false := by
      rw [hat, hcell]
      exact fun d hd => absurd hd (Option.not_mem_none d)
    rw [tokenize_stops hf hstop]
    exact ⟨us, ht, hc, rfl⟩
  | case3 cells fault hs c hcell hv later ih =>
    obtain ⟨-, -, -, hf⟩ := hlex cells
    rw [hs] at hf
    have ht := tokenize_blanks hf (by rw [hat, hcell]) hv
    obtain ⟨us, ht', hc, hfs⟩ := ih
    have hb : (a ++ cells).blank (fault.down o).position = a ++ cells.blank fault.position := by
      rw [Fault.down, ← hw, Source.blank_behind]
    rw [hb] at ht
    rw [ht]
    refine ⟨us, ht', hc, ?_⟩
    rw [List.map_cons, ← hfs]
  | case4 cells fault hs c hcell hv =>
    obtain ⟨us, ht, hc, hf⟩ := hlex cells
    rw [hs] at hf
    have hstop : ∀ d ∈ (a ++ cells).cellAt? (fault.down o).position, d.isVisible = false := by
      rw [hat, hcell]
      rintro d hd
      cases hd
      exact Bool.eq_false_iff.mpr hv
    rw [tokenize_stops hf hstop]
    exact ⟨us, ht, hc, rfl⟩

end Tokenize

end GraphClient
