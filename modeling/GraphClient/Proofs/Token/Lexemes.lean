import GraphClient.Introspection
import GraphClient.Proofs.Token.Locality
import GraphClient.Proofs.Token.Scans

/-!
# Reading what is written

A blank, a punctuator, a name and a quoted text are read back as what they were written for:
`scans_blank`, `scans_punctuator`, `scans_name`, `scans_quoted`. Between its quotes a text is
written by `Introspection.escape`; if it holds a line break, its string is broken
(`broken_quoted`).
-/

namespace GraphClient

/-! ## Fronts of texts -/

section Fronts

variable {c : Char} {rest : Source}

theorem isDigit_of_isAlpha (h : c.isAlpha = true) : c.isDigit = false := by
  have ha : (decide (65 ≤ c.val ∧ c.val ≤ 90) || (97 ≤ c.val && c.val ≤ 122)) = true := h
  show (48 ≤ c.val && c.val ≤ 57) = false
  simp [UInt32.le_iff_toNat_le] at ha ⊢
  omega

/-- The characters that begin something ignored, a spread or a string. -/
def marked : List Char := ['\ufeff', '\t', ' ', ',', '\n', '\r', '#', '.', '"']

/-- A character of a class without these begins none of that. -/
theorem misses_marked {p : Char → Bool} (h : p c = true) (hp : marked.all fun d => !p d) :
    isIgnored c = false ∧ c ≠ '\r' ∧ c ≠ '#' ∧ c ≠ '.' ∧ c ≠ '"' := by
  have hne : ∀ d ∈ marked, c ≠ d := by
    rintro d hd rfl
    have hd := List.all_eq_true.mp hp c hd
    rw [h] at hd
    cases hd
  simp only [marked, List.forall_mem_cons] at hne
  obtain ⟨hbom, htab, hspace, hcomma, hline, hcr, hcom, hdot, hq, -⟩ := hne
  refine ⟨?_, hcr, hcom, hdot, hq⟩
  simp only [isIgnored, Bool.or_eq_false_iff, beq_eq_false_iff_ne]
  exact ⟨⟨⟨⟨hbom, htab⟩, hspace⟩, hcomma⟩, hline⟩

theorem startsNumber_of_isNameStart (h : isNameStart c = true) : startsNumber c = false := by
  rw [isNameStart, Bool.or_eq_true, beq_iff_eq] at h
  rw [startsNumber, Bool.or_eq_false_iff, beq_eq_false_iff_ne]
  rcases h with h | rfl
  · refine ⟨isDigit_of_isAlpha h, ?_⟩
    rintro rfl
    cases h
  · decide

theorem read_blank (h : isIgnored c = true) : read (.whole c) rest = .ignored 0 := by
  rw [read, readFrom, if_pos h]

theorem read_name (h : isNameStart c = true) :
    read (.whole c) rest = .token
      (.name (Source.toString (.whole c :: rest.takeWhile (Cell.satisfies isNameContinue))))
      (rest.takeWhile (Cell.satisfies isNameContinue)).length := by
  obtain ⟨hi, hcr, hcom, hdot, hq⟩ := misses_marked h (by decide)
  exact readFrom_token.mpr ⟨hi, hcr, hcom, .name hdot hq (startsNumber_of_isNameStart h) h⟩

theorem read_punctuator {p : Punctuator} (h : punctuator? c = some p) :
    read (.whole c) rest = .token (.punctuator p) 0 := by
  unfold punctuator? at h
  split at h <;> cases h <;> rfl

end Fronts

/-! ## Lexemes -/

instance (s : String) : Decidable (IsName s) :=
  match h : s.toList with
  | [] => isFalse fun ⟨_, _, hs, _⟩ => by rw [h] at hs; cases hs
  | c :: cs => decidable_of_iff (isNameStart c = true ∧ cs.all isNameContinue = true)
    ⟨fun hc => ⟨c, cs, h, hc.1, List.all_eq_true.mp hc.2⟩,
      fun ⟨_, _, hs, hc⟩ => by rw [h] at hs; cases hs; exact ⟨hc.1, List.all_eq_true.mpr hc.2⟩⟩

section Lexemes

variable {c : Char} {rest : Source} {s : Spot}

theorem scans_blank (h : isIgnored c = true) :
    Scans rest s [.whole c] [] (s.skip [.whole c]) := .gap (read_blank h)

theorem scans_punctuator {p : Punctuator} (h : punctuator? c = some p) :
    Scans rest s [.whole c] [s.token (.punctuator p) [.whole c]] (s.past [.whole c]) :=
  .lexeme (read_punctuator h)

theorem takeWhile_whole {p : Char → Bool} {cs : List Char} (h : ∀ d ∈ cs, p d = true)
    (hr : Misses p rest) :
    (cs.map Cell.whole ++ rest).takeWhile (Cell.satisfies p) = cs.map Cell.whole := by
  induction cs with
  | nil => exact hr.takeWhile
  | cons d cs ih =>
    have hd : Cell.satisfies p (.whole d) = true := h d List.mem_cons_self
    rw [List.map_cons, List.cons_append, List.takeWhile_cons, hd, if_pos rfl,
      ih fun e he => h e (List.mem_cons_of_mem d he)]

theorem scans_name {n : String} (h : IsName n) (hr : Delimits rest) :
    Scans rest s (Source.ofString n) [s.token (.name n) (Source.ofString n)]
      (s.past (Source.ofString n)) := by
  obtain ⟨c, cs, hn, hc, hcs⟩ := h
  have ho : Source.ofString n = .whole c :: cs.map .whole := by
    rw [Source.ofString, hn, List.map_cons]
  have ht : (cs.map Cell.whole ++ rest).takeWhile (Cell.satisfies isNameContinue) =
      cs.map Cell.whole := takeWhile_whole hcs (hr.misses (by decide))
  have hread : read (.whole c) (cs.map Cell.whole ++ rest) =
      .token (.name n) (cs.map Cell.whole).length := by
    rw [read_name hc, ht, ← ho, Source.toString_ofString]
  rw [ho]
  exact .lexeme hread

end Lexemes

/-! ## Quoted texts -/

/-- A text between quotes on one line. -/
def quoted (s : String) : Source :=
  .whole '"' :: (Source.ofString (Introspection.escape s) ++ [.whole '"'])

/-- A text without line breaks. -/
def IsOneLine (s : String) : Prop := ∀ c ∈ s.toList, isLineBreak c = false

instance (s : String) : Decidable (IsOneLine s) :=
  decidable_of_iff (s.toList.all fun c => !isLineBreak c) (by simp [IsOneLine])

section Quoted

open Introspection

variable {c : Char} {cs : List Char} {rest : Source} {m : Nat}

theorem readString_cons (h : isLineBreak c = false) :
    readString m ((escapeChar c).map Cell.whole ++ rest) =
      (readString (m + (escapeChar c).length) rest).map fun r => (c :: r.1, r.2) := by
  unfold escapeChar
  split
  · rename_i hc
    subst hc
    show readString m (.whole '\\' :: .whole '\\' :: rest) = _
    rw [readString, if_neg (by decide), if_pos rfl, readEscape_letter (by decide)]
    rfl
  · split
    · rename_i hc
      subst hc
      show readString m (.whole '\\' :: .whole '"' :: rest) = _
      rw [readString, if_neg (by decide), if_pos rfl, readEscape_letter (by decide)]
      rfl
    · rename_i hb hq
      show readString m (.whole c :: rest) = _
      rw [readString, if_neg hq, if_neg hb, if_neg (by simp [h])]
      rfl

/-- The escaped characters of one line are read back. -/
theorem readString_escaped (h : ∀ c ∈ cs, isLineBreak c = false) :
    readString m ((cs.flatMap escapeChar).map Cell.whole ++ .whole '"' :: rest) =
      .ok (cs, m + (cs.flatMap escapeChar).length + 1) := by
  induction cs generalizing m with
  | nil =>
    rw [List.flatMap_nil, List.map_nil, List.nil_append, readString, if_pos rfl]
    rfl
  | cons c cs ih =>
    rw [List.flatMap_cons, List.map_append, List.append_assoc, readString_cons (h c (by simp)),
      ih fun d hd => h d (by simp [hd]), List.length_append, Nat.add_assoc m]
    rfl

/-- A line break ends a string before its closing quote. -/
theorem readString_broken (h : ¬ ∀ c ∈ cs, isLineBreak c = false) :
    ∃ e, readString m ((cs.flatMap escapeChar).map Cell.whole ++ rest) = .error e := by
  induction cs generalizing m with
  | nil => simp at h
  | cons c cs ih =>
    rw [List.flatMap_cons, List.map_append, List.append_assoc]
    by_cases hc : isLineBreak c = true
    · have hne : c ≠ '\\' ∧ c ≠ '"' := by constructor <;> (rintro rfl; revert hc; decide)
      rw [escapeChar, if_neg hne.1, if_neg hne.2, List.map_cons, List.map_nil,
        List.singleton_append, readString, if_neg hne.2, if_neg hne.1, if_pos hc]
      exact ⟨_, rfl⟩
    · rw [Bool.not_eq_true] at hc
      have hcs : ¬ ∀ d ∈ cs, isLineBreak d = false := fun hd => h fun e he => by
        rcases List.mem_cons.mp he with rfl | he
        · exact hc
        · exact hd e he
      obtain ⟨e, he⟩ := @ih (m + (escapeChar c).length) hcs
      rw [readString_cons hc, he]
      exact ⟨e, rfl⟩

theorem readQuoted_string {cells : Source} (h : ∀ tail, cells ≠ .whole '"' :: .whole '"' :: tail) :
    readQuoted cells = match readString 1 cells with
      | .ok (value, n) => .token (.string (String.ofList value)) (n - 1)
      | .error e => .fault e.cause e.passed :=
  readQuoted.eq_2 cells h

/-- An escaped text begins with no quote. -/
theorem escaped_ne_quotes {tail : Source}
    (h : cs ≠ [] ∨ ∀ t, rest ≠ .whole '"' :: .whole '"' :: t) :
    (cs.flatMap escapeChar).map Cell.whole ++ rest ≠ .whole '"' :: .whole '"' :: tail := by
  cases cs with
  | nil =>
    rcases h with h | h
    · exact absurd rfl h
    · exact h tail
  | cons c cs =>
    rw [List.flatMap_cons, List.map_append, List.append_assoc, escapeChar]
    split
    · simp
    · split
      · simp
      · rename_i hq
        simp [hq]

theorem ofString_escape (s : String) :
    Source.ofString (escape s) = (s.toList.flatMap escapeChar).map Cell.whole := by
  rw [Source.ofString, escape, String.toList_ofList]

theorem scans_quoted {t : String} {s : Spot} (h : IsOneLine t) (hr : Delimits rest) :
    Scans rest s (quoted t) [s.token (.string t) (quoted t)] (s.past (quoted t)) := by
  refine .lexeme ?_
  have hq : ∀ tail, (t.toList.flatMap escapeChar).map Cell.whole ++ .whole '"' :: rest ≠
      .whole '"' :: .whole '"' :: tail := fun tail =>
    escaped_ne_quotes (.inr fun u e => hr.ne_quote (List.cons.inj e).2)
  rw [List.append_assoc, List.singleton_append, ofString_escape]
  show readQuoted _ = _
  rw [readQuoted_string hq, readString_escaped h]
  simp only [String.ofList_toList, List.length_append, List.length_map, List.length_singleton]
  congr 1
  omega

/-- Whatever follows, a quoted text with a line break cannot be read. -/
theorem broken_quoted {t : String} (h : ¬ IsOneLine t) :
    ∃ cause passed,
      read (.whole '"') (Source.ofString (escape t) ++ rest) = .fault cause passed := by
  have hne : t.toList ≠ [] := fun e => h (by simp [IsOneLine, e])
  have hq : ∀ tail, (t.toList.flatMap escapeChar).map Cell.whole ++ rest ≠
      .whole '"' :: .whole '"' :: tail := fun tail => escaped_ne_quotes (.inl hne)
  obtain ⟨e, he⟩ := @readString_broken t.toList rest 1 h
  rw [ofString_escape]
  show ∃ cause passed, readQuoted _ = _
  rw [readQuoted_string hq, he]
  exact ⟨_, _, rfl⟩

end Quoted

end GraphClient
