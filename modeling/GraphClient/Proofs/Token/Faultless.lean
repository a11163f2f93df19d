import GraphClient.Document
import GraphClient.Proofs.Token.Locality
import GraphClient.Proofs.Token.Scans

/-!
# Texts without faults

A text that is tokenised without a fault is scanned as these tokens wherever it stands: in front
of a delimiter, if it is one line that ends with a token (`scans_spelled`), and in front of any
text, once a line feed is put behind it (`scans_line`). A scanned text may be moved to another
spot, where its tokens differ in their places and in the gap before the first (`Scans.move`).
-/

namespace GraphClient

theorem ofString_append (a b : String) :
    Source.ofString (a ++ b) = Source.ofString a ++ Source.ofString b := by
  simp [Source.ofString]

/-- The text of tokens with the gaps before them. -/
def spelled (ts : List Token) : Source := ts.flatMap fun t => t.gap ++ t.lexeme

/-- The text of tokens from the first to the last. -/
def bare : List Token → Source
  | [] => []
  | t :: ts => t.lexeme ++ spelled ts

theorem spanText_eq (ts : List Token) : spanText ts = Source.toString (bare ts) := by
  cases ts <;> rfl

theorem spelled_cons (t : Token) (ts : List Token) :
    spelled (t :: ts) = t.gap ++ (t.lexeme ++ spelled ts) := by
  simp [spelled]

/-! ## Ignored text -/

theorem read_ignored {c : Cell} {cells : Source} {n : Nat} (h : read c cells = .ignored n) :
    (∃ d, c = .whole d ∧ isIgnored d = true ∧ n = 0) ∨
      (c = .whole '\r' ∧ n = if cells.head? = some (.whole '\n') then 1 else 0) ∨
      (c = .whole '#' ∧ n = (cells.takeWhile (Cell.satisfies (!isLineBreak ·))).length) := by
  cases c with
  | half c => cases h
  | whole c =>
    simp only [read, readFrom] at h
    split at h
    · rename_i hi
      cases h
      exact .inl ⟨c, rfl, hi, rfl⟩
    split at h
    · rename_i hc
      cases h
      exact .inr (.inl ⟨by rw [hc], rfl⟩)
    split at h
    · rename_i hc
      cases h
      exact .inr (.inr ⟨by rw [hc], rfl⟩)
    exfalso
    revert h
    simp only [readQuoted]
    repeat' split
    all_goals
      intro h
      cases h

theorem read_ignored_le {c : Cell} {cells : Source} {n : Nat} (h : read c cells = .ignored n) :
    n ≤ cells.length := by
  rcases read_ignored h with ⟨d, -, -, rfl⟩ | ⟨-, rfl⟩ | ⟨-, rfl⟩
  · exact Nat.zero_le _
  · cases cells with
    | nil => simp
    | cons d cells => split <;> simp
  · exact (List.takeWhile_prefix _).length_le

namespace Scans

variable {rest a cells more : Source} {s s' : Spot} {ts : List Token} {c : Cell} {n : Nat}

theorem append_nil (h : Scans rest s a ts s') : Scans rest s (a ++ []) ts s' := by
  rwa [List.append_nil]

theorem of_append_nil (h : Scans rest s (a ++ []) ts s') : Scans rest s a ts s' := by
  rwa [List.append_nil] at h

/-- A token that is cut off the front of a text. -/
theorem token_front {kind : TokenKind} (h : read c (cells ++ (more ++ rest)) = .token kind n)
    (hn : n ≤ cells.length)
    (hs : Scans rest (s.past (c :: cells.take n)) (cells.drop n ++ more) ts s') :
    Scans rest s (c :: (cells ++ more)) (s.token kind (c :: cells.take n) :: ts) s' := by
  have hl : (cells.take n).length = n := by rw [List.length_take]; omega
  have ht : cells.take n ++ (cells.drop n ++ more) = cells ++ more := by
    rw [← List.append_assoc, List.take_append_drop]
  rw [← ht]
  refine .token ?_ hs
  rw [hl, ← List.append_assoc, ht, List.append_assoc, h]

/-- An ignored stretch that is cut off the front of a text. -/
theorem ignored_front (h : read c (cells ++ (more ++ rest)) = .ignored n) (hn : n ≤ cells.length)
    (hs : Scans rest (s.skip (c :: cells.take n)) (cells.drop n ++ more) ts s') :
    Scans rest s (c :: (cells ++ more)) ts s' := by
  have hl : (cells.take n).length = n := by rw [List.length_take]; omega
  have ht : cells.take n ++ (cells.drop n ++ more) = cells ++ more := by
    rw [← List.append_assoc, List.take_append_drop]
  rw [← ht]
  refine .ignored ?_ hs
  rw [hl, ← List.append_assoc, ht, List.append_assoc, h]

/-- At another spot the tokens have other places, and another gap before the first. -/
theorem move (h : Scans rest s a ts s') (u : Spot) : ∃ us u', Scans rest u a us u' ∧
    us.map (·.kind) = ts.map (·.kind) ∧ bare us = bare ts ∧
      (u.gap = s.gap → spelled us = spelled ts) := by
  induction h generalizing u with
  | done => exact ⟨[], u, .done, rfl, rfl, fun _ => rfl⟩
  | @ignored s s' c cells more ts hr _ ih =>
    obtain ⟨us, u', hs, hk, hb, hg⟩ := ih (u.skip (c :: cells))
    exact ⟨us, u', .ignored hr hs, hk, hb, fun e => hg (by simp only [Spot.skip, e])⟩
  | @token s s' kind c cells more ts hr _ ih =>
    obtain ⟨us, u', hs, hk, -, hg⟩ := ih (u.past (c :: cells))
    have hg : spelled us = spelled ts := hg rfl
    refine ⟨_, u', .token hr hs, ?_, ?_, fun e => ?_⟩
    · rw [List.map_cons, List.map_cons, hk]
      rfl
    · rw [bare, bare, hg]
      rfl
    · rw [spelled_cons, spelled_cons, hg]
      simp only [Spot.token, e]

end Scans

/-! ## Scanning what was tokenised -/

section Tokenised

variable {gap cells rest : Source} {position : Nat} {place : Place}

/-- A text whose faults are none is tokenised at once. -/
theorem fault_eq_none (h : (tokenize cells).faults = []) : (lex cells).fault = none := by
  rw [tokenize] at h
  split at h
  · assumption
  · split at h
    · cases h
    · split at h <;> cases h

/-- The tokens of a text without faults spell it, up to what is ignored at its end. -/
theorem lexFrom_spelled (h : (lexFrom gap position place cells).fault = none) :
    ∃ tail, spelled (lexFrom gap position place cells).tokens ++ tail = gap ++ cells := by
  fun_induction lexFrom gap position place cells with
  | case1 gap => exact ⟨gap, by simp [spelled]⟩
  | case2 => cases h
  | case3 gap position place c cells n hr text ih =>
    obtain ⟨tail, e⟩ := ih h
    refine ⟨tail, ?_⟩
    rw [e, List.append_assoc, List.cons_append, List.take_append_drop]
  | case4 gap position place c cells kind n hr lexeme later ih =>
    obtain ⟨tail, e⟩ := ih h
    refine ⟨tail, ?_⟩
    rw [spelled_cons, List.append_assoc, List.append_assoc, e]
    simp [lexeme]

/-- A line that ends with a token is scanned in front of a delimiter. -/
theorem scans_spelled (h : (lexFrom gap position place cells).fault = none)
    (hs : spelled (lexFrom gap position place cells).tokens = gap ++ cells)
    (hl : ∀ c ∈ cells, c.satisfies (!isLineBreak ·) = true) (hr : Delimits rest) :
    ∃ s', Scans rest ⟨gap, place⟩ cells (lexFrom gap position place cells).tokens s' := by
  fun_induction lexFrom gap position place cells with
  | case1 gap position place => exact ⟨_, .done⟩
  | case2 => cases h
  | case3 gap position place c cells n hread text ih =>
    have hcells : ∀ d ∈ cells, d.satisfies (!isLineBreak ·) = true := fun d hd =>
      hl d (List.mem_cons_of_mem c hd)
    have hs' : spelled (lexFrom (gap ++ text) (position + Source.width text) (place.after text)
        (cells.drop n)).tokens = gap ++ text ++ cells.drop n := by
      rw [hs, List.append_assoc, List.cons_append, List.take_append_drop]
    obtain ⟨s', hx⟩ := ih h hs' fun d hd => hcells d (List.mem_of_mem_drop hd)
    refine ⟨s', .of_append_nil (.ignored_front ?_ (read_ignored_le hread) (.append_nil hx))⟩
    rcases read_ignored hread with ⟨d, rfl, hi, rfl⟩ | ⟨rfl, -⟩ | ⟨rfl, hn⟩
    · rw [read, readFrom, if_pos hi]
    · exact absurd (hl _ List.mem_cons_self) (by decide)
    · -- a comment would take the rest of the line, and no token would be left to end it
      have hall : cells.takeWhile (Cell.satisfies (!isLineBreak ·)) = cells := by
        have he : (cells ++ []).takeWhile _ = _ := List.takeWhile_append_of_pos hcells
        simpa using he
      rw [hn, hall, List.drop_length, lexFrom] at hs
      simp [spelled] at hs
  | case4 gap position place c cells kind n hread lexeme later ih =>
    obtain ⟨hread', hn⟩ := read_append hread hr
    have hs' : spelled later.tokens = [] ++ cells.drop n := by
      rw [spelled_cons, List.append_cancel_left_eq, ← List.take_append_drop n cells,
        ← List.cons_append, List.append_cancel_left_eq] at hs
      simpa using hs
    obtain ⟨s', hx⟩ := ih h hs' fun d hd => hl d (List.mem_cons_of_mem c (List.mem_of_mem_drop hd))
    exact ⟨s', .of_append_nil (.token_front hread' hn (.append_nil hx))⟩

/-- The place behind the front of a line that is not cut within a line break. -/
theorem after_front {c : Cell} {n : Nat} (hn : n ≤ cells.length)
    (h : (c :: cells)[n]? = some (.whole '\r') →
      (cells.drop n ++ rest).head? ≠ some (.whole '\n')) :
    place.after (c :: cells ++ rest) =
      (place.after (c :: cells.take n)).after (cells.drop n ++ rest) := by
  rw [← Place.after_append, List.cons_append, List.cons_append, ← List.append_assoc,
    List.take_append_drop]
  intro e
  apply h
  have hl : (c :: cells.take n).length = n + 1 := by simp [hn]
  rw [List.getLast?_eq_getElem?, hl, Nat.add_sub_cancel, ← List.take_succ_cons,
    List.getElem?_take_of_lt (Nat.lt_succ_self n)] at e
  exact e

/-- A line feed ends a text at the start of a line. -/
theorem after_line (place : Place) (cells : Source) :
    (place.after (cells ++ [.whole '\n'])).column = 1 := by
  fun_induction Place.after place cells with
  | case1 p => rfl
  | case2 p rest ih => exact ih
  | case3 p c rest hcr hc ih =>
    cases rest with
    | nil => rcases hc with rfl | rfl <;> rfl
    | cons d rest =>
      rw [List.cons_append, Place.after, if_pos hc]
      · exact ih
      · rintro r rfl e
        cases e
        exact hcr _ rfl rfl
  | case4 p c rest hcr hc ih =>
    rw [List.cons_append, Place.after, if_neg hc]
    · exact ih
    · rintro r rfl
      simp at hc

/-- With a line feed behind it, a text is scanned in front of any other. -/
theorem scans_line (h : (lexFrom gap position place cells).fault = none) :
    ∃ s', s'.place = place.after (cells ++ [.whole '\n']) ∧
      ∀ rest, Scans rest ⟨gap, place⟩ (cells ++ [.whole '\n'])
        (lexFrom gap position place cells).tokens s' := by
  fun_induction lexFrom gap position place cells with
  | case1 gap position place =>
    exact ⟨_, rfl, fun rest => @Scans.gap rest _ (.whole '\n') [] rfl⟩
  | case2 => cases h
  | case3 gap position place c cells n hread text ih =>
    obtain ⟨s', hp, hx⟩ := ih h
    have hle : n ≤ cells.length := read_ignored_le hread
    rcases read_ignored hread with ⟨d, rfl, hi, rfl⟩ | ⟨rfl, hn⟩ | ⟨rfl, hn⟩
    · refine ⟨s', ?_, fun rest =>
        .ignored_front (by rw [read, readFrom, if_pos hi]) hle (hx rest)⟩
      rw [hp, after_front hle]
      rintro e
      cases e
      cases hi
    · cases cells with
      | nil =>
        -- the line feed ends the line together with the carriage return before it
        cases hn
        rw [List.drop_nil, lexFrom]
        exact ⟨_, rfl, fun rest => @Scans.gap rest _ (.whole '\r') [.whole '\n'] rfl⟩
      | cons d cells =>
        refine ⟨s', ?_, fun rest => .ignored_front ?_ hle (hx rest)⟩
        · rw [hp, after_front hle]
          rintro e hd
          by_cases hlf : d = .whole '\n'
          · rw [hn, hlf] at e
            cases e
          · rw [hn, if_neg (by simpa using hlf)] at hd
            exact hlf (Option.some.inj hd)
        · rw [hn, read, readFrom, if_neg (by decide), if_pos rfl, List.cons_append,
            List.head?_cons]
          rfl
    · refine ⟨s', ?_, fun rest => .ignored_front ?_ hle (hx rest)⟩
      · rw [hp, after_front hle]
        intro e
        rw [hn] at e
        rcases last_takeWhile e with hc | hb
        · cases hc
        · exact absurd hb (by decide)
      · have hm : Misses (!isLineBreak ·) ([.whole '\n'] ++ rest) := by
          intro d hd
          cases hd
          decide
        rw [hn, read, readFrom, if_neg (by decide), if_neg (by decide), if_pos rfl,
          takeWhile_front hm]
  | case4 gap position place c cells kind n hread lexeme later ih =>
    obtain ⟨s', hp, hx⟩ := ih h
    have hr : ∀ rest, Delimits ([.whole '\n'] ++ rest) := fun _ => delimits_cons (by decide)
    have hn : n ≤ cells.length := (read_append hread delimits_nil).2
    refine ⟨s', ?_, fun rest => .token_front (read_append hread (hr rest)).1 hn (hx rest)⟩
    rw [hp, after_front hn fun e => absurd e (read_last hread)]

end Tokenised

end GraphClient
