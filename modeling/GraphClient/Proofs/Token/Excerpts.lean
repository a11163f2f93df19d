import GraphClient.Proofs.Token.Cut
import GraphClient.Proofs.Token.Intact

/-!
# Excerpts of a text

Tokens that follow each other in a text are read again where their own text stands elsewhere, in
front of a delimiter (`scans_excerpt`): a token is read without what follows it, and an ignored
stretch between two tokens ends where it did, since the second token is still there. The text
may be broken before and behind them, and may have lost characters to blanking.
-/

namespace GraphClient

section Excerpts

variable {gap cells : Source} {position : Nat} {place : Place} {vs after : List Token}

/-- An ignored stretch ends where it did if what follows begins as it did. -/
theorem read_ignored_exchange {c : Cell} {cells rest rest' : Source}
    (h : read c (cells ++ rest) = .ignored cells.length) (hr : rest'.head? = rest.head?) :
    read c (cells ++ rest') = .ignored cells.length := by
  have hhead : (cells ++ rest').head? = (cells ++ rest).head? := by
    rw [List.head?_append, List.head?_append, hr]
  rcases read_ignored h with ⟨d, rfl, hi, hn⟩ | ⟨rfl, hn⟩ | ⟨rfl, hn⟩
  · rw [read, readFrom, if_pos hi, hn]
  · rw [read, readFrom, if_neg (by decide), if_pos rfl, hhead, ← hn]
  · rw [read, readFrom, if_neg (by decide), if_neg (by decide), if_pos rfl]
    congr 1
    -- the comment is all of these cells, and what was behind it is in no comment
    have hall : ∀ d ∈ cells, d.satisfies (!isLineBreak ·) = true := by
      have hp : cells <+: (cells ++ rest).takeWhile (Cell.satisfies (!isLineBreak ·)) :=
        List.prefix_of_prefix_length_le (List.prefix_append _ _) (List.takeWhile_prefix _)
          (Nat.le_of_eq hn)
      exact fun d hd => List.all_eq_true.mp List.all_takeWhile d (hp.subset hd)
    have hrest : Misses (!isLineBreak ·) rest := by
      intro d hd
      obtain ⟨tail, rfl⟩ := List.head?_eq_some_iff.mp hd
      refine Bool.eq_false_iff.mpr fun hb => ?_
      rw [List.takeWhile_append_of_pos hall, List.takeWhile_cons, if_pos hb] at hn
      simp at hn
    have hrest' : Misses (!isLineBreak ·) rest' := fun d hd => hrest d (hr ▸ hd)
    rw [List.takeWhile_append_of_pos hall, hrest'.takeWhile, List.append_nil]

theorem Scans.ne_nil {rest a : Source} {s s' : Spot} {ts : List Token} (h : Scans rest s a ts s')
    (hts : ts ≠ []) : a ≠ [] := by
  cases h with
  | done => exact absurd rfl hts
  | ignored => exact List.cons_ne_nil _ _
  | token => exact List.cons_ne_nil _ _

/-- The first tokens of a text are scanned where its front that they end stands. -/
theorem scans_first (h : (lexFrom gap position place cells).tokens = vs ++ after)
    (hvs : vs ≠ []) :
    ∃ a more, cells = a ++ more ∧ spelled vs = gap ++ a ∧
      ∀ rest, Delimits rest → ∃ s', Scans rest ⟨gap, place⟩ a vs s' := by
  fun_induction lexFrom gap position place cells generalizing vs with
  | case1 | case2 => exact absurd (List.append_eq_nil_iff.mp h.symm).1 hvs
  | case3 gap position place c cells n hread text =>
    rename_i ih
    obtain ⟨a, more, hcells, hs, hscan⟩ := ih h hvs
    have hle : n ≤ cells.length := read_ignored_le hread
    have hsplit : cells = cells.take n ++ (a ++ more) := by
      rw [← hcells, List.take_append_drop]
    have hlen : (cells.take n).length = n := List.length_take_of_le hle
    refine ⟨text ++ a, more, ?_, by rw [hs, List.append_assoc], fun rest hr => ?_⟩
    · simp only [text, List.cons_append, List.append_assoc]
      rw [← hsplit]
    · obtain ⟨s', hx⟩ := hscan rest hr
      refine ⟨s', .ignored ?_ hx⟩
      obtain ⟨d, ds, rfl⟩ := List.exists_cons_of_ne_nil (hx.ne_nil hvs)
      have hwhole : read c (cells.take n ++ (d :: ds ++ more)) =
          .ignored (cells.take n).length := by
        rw [← hsplit, hread, hlen]
      exact read_ignored_exchange hwhole rfl
  | case4 gap position place c cells kind n hread lexeme later =>
    rename_i ih
    obtain ⟨t, vs, rfl⟩ := List.exists_cons_of_ne_nil hvs
    injection h with ht hlater
    subst ht
    have hle : n ≤ cells.length := (read_append hread delimits_nil).2
    have hlen : (cells.take n).length = n := List.length_take_of_le hle
    obtain ⟨a, more, hcells, hs, hscan⟩ : ∃ a more, cells.drop n = a ++ more ∧ spelled vs = a ∧
        ∀ rest, Delimits rest → ∃ s',
          Scans rest (Spot.past ⟨gap, place⟩ lexeme) a vs s' := by
      by_cases hnil : vs = []
      · subst hnil
        exact ⟨[], _, rfl, rfl, fun rest _ => ⟨_, .done⟩⟩
      · obtain ⟨a, more, hcells, hs, hscan⟩ := ih hlater hnil
        exact ⟨a, more, hcells, by rw [hs, List.nil_append], hscan⟩
    have hsplit : cells = (cells.take n ++ a) ++ more := by
      rw [List.append_assoc, ← hcells, List.take_append_drop]
    refine ⟨lexeme ++ a, more, ?_, by rw [spelled_cons, hs], fun rest hr => ?_⟩
    · simp only [lexeme, List.cons_append]
      rw [← hsplit]
    · obtain ⟨s', hx⟩ := hscan rest hr
      refine ⟨s', .token ?_ hx⟩
      rw [hlen, ← List.append_assoc]
      have hwhole : read c ((cells.take n ++ a) ++ more) = .token kind n := by rw [← hsplit, hread]
      refine read_exchange hwhole ?_ hr
      rw [List.length_append, hlen]
      exact Nat.le_add_right _ _

/-- Tokens that follow each other are scanned where their text stands. -/
theorem scans_excerpt (h : vs ++ after <:+ (lexFrom gap position place cells).tokens)
    (hvs : vs ≠ []) {rest : Source} (hr : Delimits rest) :
    ∃ s s', Scans rest s (bare vs) vs s' := by
  fun_induction lexFrom gap position place cells with
  | case1 | case2 =>
    exact absurd (List.append_eq_nil_iff.mp (List.suffix_nil.mp h)).1 hvs
  | case3 gap position place c cells n hread text ih => exact ih h
  | case4 gap position place c cells kind n hread lexeme later ih =>
    rcases List.suffix_cons_iff.mp h with h | h
    · -- the excerpt begins with this token
      obtain ⟨t, vs, rfl⟩ := List.exists_cons_of_ne_nil hvs
      have hlex : (lexFrom gap position place (c :: cells)).tokens = t :: vs ++ after := by
        rw [lexFrom, hread, h]
      obtain ⟨a, more, -, hs, hscan⟩ := scans_first hlex hvs
      obtain ⟨s', hx⟩ := hscan rest hr
      injection h with ht hlater
      have hgap : t.gap = gap := congrArg Token.gap ht
      rw [spelled_cons, hgap, List.append_right_inj] at hs
      exact ⟨_, s', hs ▸ hx⟩
    · exact ih h

theorem bare_intact (h : ∀ t ∈ vs, t.gap.Intact ∧ t.lexeme.Intact) : (bare vs).Intact := by
  cases vs with
  | nil => exact Source.intact_nil
  | cons t vs =>
    rw [List.forall_mem_cons] at h
    refine h.1.2.append fun c hc => ?_
    obtain ⟨u, hu, hc⟩ := List.mem_flatMap.mp hc
    exact ((h.2 u hu).1.append (h.2 u hu).2) c hc

/-- The text of tokens that follow each other is the source that they are read from. -/
theorem ofString_spanText (h : vs <:+: (lexFrom [] position place cells).tokens) :
    Source.ofString (spanText vs) = bare vs := by
  rw [spanText_eq]
  refine Source.ofString_toString (bare_intact fun t ht => ?_)
  exact lexFrom_intact Source.intact_nil position place cells t (h.subset ht)

/-- The text of tokens that follow each other is tokenised as them and nothing else. -/
theorem lex_excerpt (h : vs ++ after <:+ (lexFrom gap position place cells).tokens)
    (hvs : vs ≠ []) : (lex (bare vs)).fault = none ∧ bare (lex (bare vs)).tokens = bare vs ∧
      (lex (bare vs)).tokens.map (·.kind) = vs.map (·.kind) := by
  obtain ⟨s, s', hs⟩ := scans_excerpt h hvs delimits_nil
  obtain ⟨us, u, hus, hk, hb, -⟩ := hs.move ⟨[], Place.start⟩
  have hlex := hus.lexFrom 0
  simp only [List.append_nil, lexFrom] at hlex
  rw [lex, hlex]
  exact ⟨rfl, hb, hk⟩

end Excerpts

end GraphClient
