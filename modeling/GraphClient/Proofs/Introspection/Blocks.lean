import GraphClient.Proofs.Introspection.Spelling

/-!
# Blocks of introspection data

A block is written with each member on a line of its own, behind its description (`Rows`). So a
member that is named by a keyword is no start of a definition: what follows its name on the line
is no name, and enum values may have any names (`valueRows_members`).
-/

namespace GraphClient

open Grammar

/-- Members one after the other, each with its tokens on lines before those of the next. -/
inductive Rows {α : Type} (P : List Token → α → Prop) : Nat → List Token → List α → Prop where
  | nil {line : Nat} : Rows P line [] []
  | cons {line next : Nat} {ts us : List Token} {a : α} {as : List α} : P ts a →
      (∀ t ∈ ts, line ≤ t.line ∧ t.line < next) → line ≤ next → Rows P next us as →
      Rows P line (ts ++ us) (a :: as)

theorem Rows.many {α : Type} {P : List Token → α → Prop} {line : Nat} {ts : List Token}
    {as : List α} (h : Rows P line ts as) : Many P ts as := by
  induction h with
  | nil => exact .nil
  | cons hp _ _ _ ih => exact .cons hp ih

theorem Rows.line_le {α : Type} {P : List Token → α → Prop} {line : Nat} {ts : List Token}
    {as : List α} (h : Rows P line ts as) : ∀ t ∈ ts, line ≤ t.line := by
  induction h with
  | nil => exact fun _ ht => by cases ht
  | cons _ hl hle _ ih =>
    intro t ht
    rcases List.mem_append.mp ht with ht | ht
    · exact (hl t ht).1
    · exact Nat.le_trans hle (ih t ht)

/-- The tokens of a block with its members on lines of their own. -/
def RowBlock {α : Type} (P : List Token → α → Prop) (ts : List Token) (as : List α) : Prop :=
  ∃ o us c, ts = o :: (us ++ [c]) ∧ o.kind = .punctuator .braceL ∧ Rows P (o.line + 1) us as ∧
    c.kind = .punctuator .braceR

theorem RowBlock.block {α : Type} {P : List Token → α → Prop} {ts : List Token} {as : List α}
    (h : RowBlock P ts as) : Block P ts as := by
  obtain ⟨o, us, c, rfl, ho, hr, hc⟩ := h
  exact .members ho hr.many hc

namespace Introspection

/-- The line of a member in a block. -/
def row (write : Json → String) (m : Json) : String :=
  "  " ++ describe "  " m ++ write m ++ "\n"

theorem block_eq (write : Json → String) (ms : List Json) :
    block write ms = " \x7b\n" ++ String.join (ms.map (row write)) ++ "\x7d\n\n" := rfl

section Rows

variable {α : Type} {P : List Token → α → Prop} {write : Json → String} {f : Json → α} {m : Json}
  {W : Json → List Token → Prop} {ms : List Json} {rest : Source} {s : Spot}

theorem indent_spans (h : Fits (textOf "description" m)) :
    Spans (Source.ofString ("  " ++ describe "  " m)) fun ts =>
      Description ts (readText (textOf "description" m)) := by
  have hb : Spells Anything (Source.ofString "  ") (OfKinds []) :=
    .cons_blank (.inl rfl) (.cons_blank (.inl rfl) .nothing)
  rw [ofString_append]
  refine ((Spans.of_spells hb).append (describe_spans rfl h)).imp ?_
  rintro ts ⟨us, vs, rfl, hu, hv⟩
  rwa [kindsOf_eq_nil.mp hu]

/-- A row is read as tokens on lines before the next row. -/
theorem row_scans (hd : Fits (textOf "description" m))
    {V : List Token → Prop} (hw : Spells Delimits (Source.ofString (write m)) V) :
    ∃ ds us s', Scans rest s (Source.ofString (row write m)) (ds ++ us) s' ∧
      s.place.line ≤ s'.place.line ∧
      (∀ t ∈ ds ++ us, s.place.line ≤ t.line ∧ t.line < s'.place.line) ∧
      Description ds (readText (textOf "description" m)) ∧ V us := by
  have hfeed : Source.ofString "\n" = [.whole '\n'] := rfl
  rw [row, ofString_append, ofString_append, hfeed, List.append_assoc]
  obtain ⟨ds, u, hs, hq⟩ :=
    indent_spans hd (Source.ofString (write m) ++ ([.whole '\n'] ++ rest)) s
  obtain ⟨us, v, hs', -, hq'⟩ := hw ([.whole '\n'] ++ rest) u (delimits_cons (by decide))
  have hend : Scans rest v [.whole '\n'] [] (v.skip [.whole '\n']) := scans_blank rfl
  have hrow : Scans ([.whole '\n'] ++ rest) s _ (ds ++ us) v := Scans.append hs hs'
  have hline : (v.skip [.whole '\n']).place.line = v.place.line + 1 := rfl
  have ⟨hle, hlines⟩ := hrow.lines
  refine ⟨ds, us, v.skip [.whole '\n'], ?_, ?_, fun t ht => ?_, hq, hq'⟩
  · have hx := hrow.append hend
    rwa [List.append_nil, List.append_assoc] at hx
  · rw [hline]
    exact Nat.le_succ_of_le hle
  · rw [hline]
    exact ⟨(hlines t ht).1, Nat.lt_succ_of_le (hlines t ht).2⟩

/-- The rows of a block, each behind the lines of the one before. -/
theorem rows_scan (h : ∀ m ∈ ms, Fits (textOf "description" m) ∧
      Spells Delimits (Source.ofString (write m)) fun us =>
        ∀ ds, Description ds (readText (textOf "description" m)) → P (ds ++ us) (f m)) :
    ∃ ts s', Scans rest s (Source.ofString (String.join (ms.map (row write)))) ts s' ∧
      Rows P s.place.line ts (ms.map f) := by
  induction ms generalizing s with
  | nil => exact ⟨[], s, .done, .nil⟩
  | cons m ms ih =>
    obtain ⟨hd, hw⟩ := h m List.mem_cons_self
    rw [List.map_cons, String.join_cons, ofString_append]
    obtain ⟨ds, us, u, hs, hle, hlines, hdesc, hp⟩ := row_scans hd hw
    obtain ⟨vs, v, hs', hrows⟩ := @ih u fun k hk => h k (List.mem_cons_of_mem m hk)
    exact ⟨_, v, hs.append hs', .cons (hp ds hdesc) hlines hle hrows⟩

theorem block_spans (h : ∀ m ∈ ms, Fits (textOf "description" m) ∧
      Spells Delimits (Source.ofString (write m)) fun us =>
        ∀ ds, Description ds (readText (textOf "description" m)) → P (ds ++ us) (f m)) :
    Spans (Source.ofString (block write ms)) fun ts => RowBlock P ts (ms.map f) := by
  intro rest s
  have hopen : ∀ rest, Scans rest s (Source.ofString " \x7b\n")
      [(s.skip [.whole ' ']).token (.punctuator .braceL) [.whole '\x7b']] _ := fun rest =>
    (scans_blank rfl).append ((scans_punctuator rfl).append (scans_blank rfl))
  obtain ⟨us, u, hrows, hus⟩ := @rows_scan _ P write f ms
    (Source.ofString "\x7d\n\n" ++ rest) _ h
  have hclose : Scans rest u (Source.ofString "\x7d\n\n")
      [u.token (.punctuator .braceR) [.whole '\x7d']] _ :=
    (scans_punctuator rfl).append ((scans_blank rfl).append (scans_blank rfl))
  rw [block_eq, ofString_append, ofString_append, List.append_assoc]
  exact ⟨_, _, (hopen _).append (hrows.append hclose), _, us, _, rfl, rfl, hus, rfl⟩

/-- A broken member breaks the block, if the members before it can be read. -/
theorem rows_break {clean : Json → Prop} (hd : ∀ m ∈ ms, Fits (textOf "description" m))
    (hw : ∀ m ∈ ms, clean m → Spells Delimits (Source.ofString (write m)) (W m))
    (hb : ∀ m ∈ ms, ¬ clean m → Breaks (Source.ofString (write m)))
    (h : ¬ ∀ m ∈ ms, clean m) : Breaks (Source.ofString (String.join (ms.map (row write)))) := by
  induction ms with
  | nil => simp at h
  | cons m ms ih =>
    rw [List.map_cons, String.join_cons, ofString_append]
    by_cases hm : clean m
    · have hms : ¬ ∀ k ∈ ms, clean k := fun hk => h fun k hk' => by
        rcases List.mem_cons.mp hk' with rfl | hk'
        · exact hm
        · exact hk k hk'
      have hrest := ih (fun k hk => hd k (List.mem_cons_of_mem m hk))
        (fun k hk => hw k (List.mem_cons_of_mem m hk))
        (fun k hk => hb k (List.mem_cons_of_mem m hk)) hms
      refine Breaks.of_scans (fun rest s => ?_) hrest
      obtain ⟨ds, us, u, hs, -, -, -, -⟩ :=
        row_scans (hd m List.mem_cons_self) (hw m List.mem_cons_self hm)
      exact ⟨_, u, hs⟩
    · rw [row, ofString_append, ofString_append]
      exact .append (.append (.behind (indent_spans (hd m List.mem_cons_self))
        (hb m List.mem_cons_self hm)))

theorem block_breaks {clean : Json → Prop} (hd : ∀ m ∈ ms, Fits (textOf "description" m))
    (hw : ∀ m ∈ ms, clean m → Spells Delimits (Source.ofString (write m)) (W m))
    (hb : ∀ m ∈ ms, ¬ clean m → Breaks (Source.ofString (write m)))
    (h : ¬ ∀ m ∈ ms, clean m) : Breaks (Source.ofString (block write ms)) := by
  rw [block_eq, ofString_append, ofString_append]
  refine .append (.of_scans (fun rest s => ?_) (rows_break hd hw hb h))
  exact ⟨_, _, (scans_blank rfl).append ((scans_punctuator rfl).append (scans_blank rfl))⟩

end Rows

end Introspection

end GraphClient
