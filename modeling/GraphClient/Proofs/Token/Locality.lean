import GraphClient.Token.Lexer

/-!
# Tokens are read locally

What is read at the front of a text stays the same when more text follows behind it, as long as
that text begins with a delimiter (`Delimits`): blanks, line breaks, commas, comments, and all
punctuators but the spread. So it is for numbers (`readNumber_append`), for strings, which end
at their own quotes (`readString_append`), and for tokens of all kinds (`read_append`).
-/

namespace GraphClient

/-- The characters that no token before them takes in. -/
def delimiters : List Char :=
  ['\ufeff', '\t', ' ', ',', '\n', '\r', '#', '!', '$', '&', '(', ')', ':', '=', '@', '[', ']',
    '\x7b', '|', '\x7d']

/-- A text that is empty or begins with a delimiter. -/
def Delimits (rest : Source) : Prop := ∀ c ∈ rest.head?, ∃ d ∈ delimiters, c = .whole d

theorem delimits_nil : Delimits [] := nofun

theorem delimits_cons {d : Char} {rest : Source} (h : d ∈ delimiters) :
    Delimits (.whole d :: rest) := by
  intro c hc
  cases hc
  exact ⟨d, h, rfl⟩

/-- The front of a text is not in a class. -/
def Misses (p : Char → Bool) (rest : Source) : Prop := ∀ c ∈ rest.head?, c.satisfies p = false

theorem Delimits.misses {rest : Source} (h : Delimits rest) {p : Char → Bool}
    (hp : delimiters.all fun d => !p d) : Misses p rest := by
  intro c hc
  obtain ⟨d, hd, rfl⟩ := h c hc
  exact (Bool.not_eq_true' _).mp (List.all_eq_true.mp hp d hd)

theorem Delimits.ne_quote {rest cells : Source} (h : Delimits rest) :
    rest ≠ .whole '"' :: cells := by
  rintro rfl
  obtain ⟨d, hd, e⟩ := h _ rfl
  cases e
  revert hd
  decide

section Classes

variable {p : Char → Bool} {cells rest : Source}

theorem Misses.takeWhile (h : Misses p rest) : rest.takeWhile (Cell.satisfies p) = [] := by
  cases rest with
  | nil => rfl
  | cons c rest => rw [List.takeWhile_cons, h c rfl, if_neg (by decide)]

theorem takeWhile_front (h : Misses p rest) :
    (cells ++ rest).takeWhile (Cell.satisfies p) = cells.takeWhile (Cell.satisfies p) := by
  rw [List.takeWhile_append, h.takeWhile, List.append_nil]
  split
  · rename_i hl
    exact ((List.takeWhile_prefix _).eq_of_length hl).symm
  · rfl

theorem dropWhile_front (h : Misses p rest) :
    (cells ++ rest).dropWhile (Cell.satisfies p) = cells.dropWhile (Cell.satisfies p) ++ rest := by
  have hc := List.takeWhile_append_dropWhile (p := Cell.satisfies p) (l := cells ++ rest)
  have hd := List.takeWhile_append_dropWhile (p := Cell.satisfies p) (l := cells)
  rw [takeWhile_front h] at hc
  rw [← List.append_right_inj (cells.takeWhile (Cell.satisfies p)), hc, ← List.append_assoc, hd]

theorem head_any_front (h : Misses p rest) :
    (cells ++ rest).head?.any (Cell.satisfies p) = cells.head?.any (Cell.satisfies p) := by
  cases cells with
  | cons c cells => rfl
  | nil =>
    cases rest with
    | nil => rfl
    | cons c rest => exact h c rfl

/-- The last of a cell and the cells of a class behind it. -/
theorem last_takeWhile {c d : Cell}
    (h : (c :: cells)[(cells.takeWhile (Cell.satisfies p)).length]? = some d) :
    d = c ∨ d.satisfies p = true := by
  have hp : c :: cells.takeWhile (Cell.satisfies p) <+: c :: cells :=
    (List.prefix_cons_inj _).mpr (List.takeWhile_prefix _)
  rw [List.prefix_iff_getElem?.mp hp _ (Nat.lt_succ_self _)] at h
  rcases List.mem_cons.mp (List.mem_of_getElem (Option.some.inj h)) with hc | hm
  · exact .inl hc
  · exact .inr (List.all_eq_true.mp List.all_takeWhile _ hm)

end Classes

/-! ## Numbers -/

namespace Front

variable {rest : Source} {f g : Front}

/-- The same front with more text behind it. -/
def extend (f : Front) (rest : Source) : Front := ⟨f.passed, f.rest ++ rest⟩

/-- Going on from one front to the other passes the cells between them, which end no line. -/
def Goes (f g : Front) : Prop :=
  ∃ cells, f.rest = cells ++ g.rest ∧ g.passed = f.passed + cells.length ∧ .whole '\r' ∉ cells

theorem goes_self (f : Front) : f.Goes f := ⟨[], rfl, rfl, List.not_mem_nil⟩

theorem goes_cons {c : Cell} {cells : Source} {n : Nat} (h : c ≠ .whole '\r') :
    (Front.mk n (c :: cells)).Goes ⟨n + 1, cells⟩ :=
  ⟨[c], rfl, rfl, fun hm => h (List.mem_singleton.mp hm).symm⟩

theorem Goes.trans {e : Front} (h : e.Goes f) (h' : f.Goes g) : e.Goes g := by
  obtain ⟨as, ha, hm, hb⟩ := h
  obtain ⟨bs, hb', hn, hc⟩ := h'
  refine ⟨as ++ bs, by rw [ha, hb', List.append_assoc], ?_, ?_⟩
  · rw [hn, hm, List.length_append, Nat.add_assoc]
  · exact fun h => (List.mem_append.mp h).elim hb hc

theorem ne_return {p : Char → Bool} {c : Cell} (h : c.satisfies p = true) (hp : p '\r' = false) :
    c ≠ .whole '\r' := by
  rintro rfl
  rw [Cell.satisfies, hp] at h
  cases h

theorem optional_extend {p : Char → Bool} (h : Misses p rest) (f : Front) :
    (f.extend rest).optional p = (f.optional p).extend rest := by
  rcases f with ⟨n, _ | ⟨c, cells⟩⟩
  · cases rest with
    | nil => rfl
    | cons c rest => simp only [extend, optional, List.nil_append, h c rfl]; rfl
  · simp only [extend, optional, List.cons_append]
    split <;> rfl

theorem optional_goes {p : Char → Bool} (hp : p '\r' = false) (f : Front) :
    f.Goes (f.optional p) := by
  rcases f with ⟨n, _ | ⟨c, cells⟩⟩
  · exact goes_self _
  · simp only [optional]
    split
    · rename_i hc
      exact goes_cons (ne_return hc hp)
    · exact goes_self _

theorem digits_extend (h : f.digits = .ok g) (hr : Misses Char.isDigit rest) :
    (f.extend rest).digits = .ok (g.extend rest) ∧ f.Goes g := by
  simp only [digits] at h
  split at h
  · cases h
  · rename_i hne
    cases h
    refine ⟨?_, _, List.takeWhile_append_dropWhile.symm, rfl, fun hm => ?_⟩
    · simp only [digits, extend, takeWhile_front hr, dropWhile_front hr, if_neg hne]
    · exact absurd (List.all_eq_true.mp List.all_takeWhile _ hm) (by decide)

theorem whole_extend (h : f.whole = .ok g) (hr : Misses Char.isDigit rest) :
    (f.extend rest).whole = .ok (g.extend rest) ∧ f.Goes g := by
  rcases f with ⟨n, cells⟩
  unfold whole at h
  split at h
  · rename_i cells' e
    simp only at e
    subst e
    split at h
    · cases h
    · rename_i hd
      cases h
      refine ⟨?_, goes_cons (by decide)⟩
      simp only [extend, whole, List.cons_append, head_any_front hr, if_neg hd]
  · rename_i hz
    obtain ⟨hd, hg⟩ := digits_extend h hr
    refine ⟨?_, hg⟩
    unfold whole
    split
    · rename_i cells' e
      cases cells with
      | nil => cases h
      | cons c cells => cases e; exact absurd rfl (hz cells)
    · exact hd

theorem fraction_extend (h : f.fraction = .ok g) (hr : Misses Char.isDigit rest)
    (hp : Misses (· == '.') rest) :
    (f.extend rest).fraction = .ok (g.extend rest) ∧ f.Goes g := by
  rcases f with ⟨n, cells⟩
  unfold fraction at h
  split at h
  · rename_i cells' e
    simp only at e
    subst e
    obtain ⟨hd, hg⟩ := digits_extend h hr
    exact ⟨hd, (goes_cons (by decide)).trans hg⟩
  · rename_i hn
    cases h
    refine ⟨?_, goes_self _⟩
    unfold fraction
    split
    · rename_i cells' e
      cases cells with
      | nil =>
        simp only [extend, List.nil_append] at e
        exact absurd (hp (.whole '.') (by rw [e]; rfl)) (by decide)
      | cons c cells => cases e; exact absurd rfl (hn cells)
    · rfl

theorem exponent_extend (h : f.exponent = .ok g) (hr : Misses Char.isDigit rest)
    (he : Misses isExponentMark rest) (hs : Misses isSign rest) :
    (f.extend rest).exponent = .ok (g.extend rest) ∧ f.Goes g := by
  rcases f with ⟨n, _ | ⟨c, cells⟩⟩
  · cases h
    refine ⟨?_, goes_self _⟩
    cases rest with
    | nil => rfl
    | cons c rest => simp only [extend, exponent, List.nil_append, he c rfl]; rfl
  · simp only [exponent] at h
    simp only [exponent, extend, List.cons_append]
    split at h
    · rename_i hc
      obtain ⟨hd, hg⟩ := digits_extend h hr
      have hm : Front.Goes ⟨n, c :: cells⟩ ⟨n + 1, cells⟩ := goes_cons (ne_return hc (by decide))
      rw [if_pos hc]
      rw [← optional_extend hs] at hd
      exact ⟨hd, hm.trans ((optional_goes (by decide) _).trans hg)⟩
    · rename_i hc
      cases h
      rw [if_neg hc]
      exact ⟨rfl, goes_self _⟩

end Front

theorem readNumber_append {cells rest : Source} {kind : TokenKind} {n : Nat}
    (h : readNumber cells = .ok (kind, n)) (hr : Delimits rest) :
    readNumber (cells ++ rest) = .ok (kind, n) ∧
      n ≤ cells.length ∧ .whole '\r' ∉ cells.take n := by
  have hdigit : Misses Char.isDigit rest := hr.misses (by decide)
  have hsign : Misses (· == '-') rest := hr.misses (by decide)
  simp only [readNumber, bind, Except.bind] at h
  split at h
  · cases h
  rename_i whole hw
  obtain ⟨hw', gw⟩ := Front.whole_extend hw hdigit
  split at h
  · cases h
  rename_i fraction hf
  obtain ⟨hf', gf⟩ := Front.fraction_extend hf hdigit (hr.misses (by decide))
  split at h
  · cases h
  rename_i last hl
  obtain ⟨hl', gl⟩ :=
    Front.exponent_extend hl hdigit (hr.misses (by decide)) (hr.misses (by decide))
  split at h
  · cases h
  rename_i hc
  cases h
  have ho := @Front.optional_goes (· == '-') (by decide) ⟨0, cells⟩
  have hx : (Front.mk 0 (cells ++ rest)).optional (· == '-') =
      ((Front.mk 0 cells).optional (· == '-')).extend rest :=
    Front.optional_extend hsign ⟨0, cells⟩
  obtain ⟨passed, hcells, hn, hp⟩ := ho.trans (gw.trans (gf.trans gl))
  simp only at hcells hn
  rw [Nat.zero_add] at hn
  refine ⟨?_, by simp [hcells, hn], by simpa [hcells, hn] using hp⟩
  have ha : (last.extend rest).rest.head?.any (Cell.satisfies Front.continuesNumber) =
      last.rest.head?.any (Cell.satisfies Front.continuesNumber) :=
    head_any_front (hr.misses (by decide))
  simp only [readNumber, bind, Except.bind, hx, hw', hf', hl']
  rw [ha, if_neg hc]
  rfl

/-! ## Strings -/

section Escapes

variable {cells rest : Source} {c : Char} {n m : Nat}

theorem hexQuad?_append (h : hexQuad? cells = some n) :
    hexQuad? (cells ++ rest) = some n ∧ 4 ≤ cells.length := by
  match cells, h with
  | a :: b :: c :: d :: cells, h => exact ⟨h, by simp only [List.length_cons]; omega⟩
  | [], h | [_], h | [_, _], h | [_, _, _], h => cases h

theorem trailingEscape?_append (h : trailingEscape? m cells = some c) :
    trailingEscape? m (cells ++ rest) = some c ∧ 6 ≤ cells.length := by
  unfold trailingEscape? at h
  split at h
  · rename_i cells
    split at h
    · rename_i k hk
      obtain ⟨hq, hl⟩ := @hexQuad?_append cells rest _ hk
      refine ⟨?_, by simp only [List.length_cons]; omega⟩
      simp only [trailingEscape?, List.cons_append, hq]
      exact h
    · cases h
  · cases h

theorem quadEscape?_append (h : quadEscape? cells = some (c, n)) :
    quadEscape? (cells ++ rest) = some (c, n) ∧ n ≤ cells.length := by
  unfold quadEscape? at h
  split at h
  · rename_i k hk
    obtain ⟨hq, hl⟩ := @hexQuad?_append cells rest _ hk
    simp only [quadEscape?, hq]
    split at h
    · rename_i hv
      cases h
      exact ⟨by rw [if_pos hv], hl⟩
    · rename_i hv
      split at h
      · rename_i hlead
        obtain ⟨d, hd, e⟩ := Option.map_eq_some_iff.mp h
        cases e
        obtain ⟨ht, htl⟩ := @trailingEscape?_append _ rest _ _ hd
        rw [List.length_drop] at htl
        rw [if_neg hv, if_pos hlead, List.drop_append_of_le_length hl, ht]
        exact ⟨rfl, by omega⟩
      · cases h
  · cases h

theorem bracedEscape_append {value : Nat} (h : bracedEscape value m cells = .ok (c, n)) :
    bracedEscape value m (cells ++ rest) = .ok (c, n) ∧ m < n ∧ n ≤ m + cells.length := by
  induction cells generalizing value m with
  | nil => cases h
  | cons d cells ih =>
    simp only [bracedEscape, List.cons_append, List.length_cons] at h ⊢
    split at h
    · rename_i hd
      rw [if_pos hd]
      split at h
      · cases h
      · rename_i hv
        cases h
        rw [if_neg hv]
        exact ⟨rfl, by omega, by omega⟩
    · rename_i hd
      rw [if_neg hd]
      split at h
      · cases h
      · rename_i k hk
        split at h
        · cases h
        · rename_i hv
          obtain ⟨hb, hlt, hle⟩ := ih h
          rw [if_neg hv]
          exact ⟨hb, by omega, by omega⟩

theorem readEscape_quad {digits : Source} (h : ∀ ds, digits ≠ .whole '\x7b' :: ds) :
    readEscape (.whole 'u' :: digits) = match quadEscape? digits with
      | some (c, n) => .ok (c, n + 1)
      | none => .error (.unicodeEscape (escapeText 6 (.whole 'u' :: digits))) :=
  readEscape.eq_2 digits h

theorem readEscape_letter (h : c ≠ 'u') :
    readEscape (.whole c :: cells) = match letterEscape c with
      | some d => .ok (d, 1)
      | none => .error (.characterEscape (escapeText 2 (.whole c :: cells))) :=
  readEscape.eq_3 c cells (fun _ _ e => h e) h

theorem readEscape_append (h : readEscape cells = .ok (c, n)) :
    readEscape (cells ++ rest) = .ok (c, n) ∧ n ≤ cells.length := by
  unfold readEscape at h
  split at h
  · rename_i digits
    split at h
    · rename_i d k hk
      cases h
      obtain ⟨hb, -, hl⟩ := @bracedEscape_append digits rest _ _ _ _ hk
      refine ⟨?_, by simp only [List.length_cons]; omega⟩
      simp only [readEscape, List.cons_append, hb]
    · cases h
  · rename_i digits hbrace
    split at h
    · rename_i d k hk
      cases h
      obtain ⟨hq, hl⟩ := @quadEscape?_append digits rest _ _ hk
      refine ⟨?_, by simp only [List.length_cons]; omega⟩
      have hd : ∀ ds, digits ++ rest ≠ .whole '\x7b' :: ds := by
        intro ds e
        cases digits with
        | nil => cases hk
        | cons x digits => cases e; exact hbrace digits rfl
      rw [List.cons_append, readEscape_quad hd, hq]
    · cases h
  · rename_i d cells hbrace hu
    split at h
    · rename_i e he
      cases h
      refine ⟨?_, by simp only [List.length_cons]; omega⟩
      rw [List.cons_append, readEscape_letter (fun e => hu e), he]
    · cases h
  · cases h

end Escapes

section Strings

variable {cells rest : Source} {cs : List Char} {n m : Nat}

theorem except_map_eq_ok {ε α β : Type} {f : α → β} {x : Except ε α} {b : β}
    (h : x.map f = .ok b) : ∃ a, x = .ok a ∧ f a = b := by
  cases x with
  | error e => cases h
  | ok a => cases h; exact ⟨a, rfl, rfl⟩

theorem readString_append (h : readString m cells = .ok (cs, n)) :
    readString m (cells ++ rest) = .ok (cs, n) ∧ m < n ∧ n ≤ m + cells.length := by
  fun_induction readString m cells generalizing cs n with
  | case1 | case2 | case4 | case6 => cases h
  | case3 m cells =>
    cases h
    refine ⟨?_, by omega, by simp only [List.length_cons]; omega⟩
    rw [List.cons_append, readString, if_pos rfl]
  | case5 m cells d k he hq ih =>
    obtain ⟨⟨ds, j⟩, hs, e⟩ := except_map_eq_ok h
    cases e
    obtain ⟨hs', hlt, hle⟩ := ih hs
    obtain ⟨he', hk⟩ := @readEscape_append _ rest _ _ he
    rw [List.length_drop] at hle
    refine ⟨?_, by omega, by simp only [List.length_cons]; omega⟩
    rw [List.cons_append, readString, if_neg hq, if_pos rfl, he']
    simp only [List.drop_append_of_le_length hk, hs']
    rfl
  | case7 m c cells hc hb hl ih =>
    obtain ⟨⟨ds, j⟩, hs, e⟩ := except_map_eq_ok h
    cases e
    obtain ⟨hs', hlt, hle⟩ := ih hs
    refine ⟨?_, by omega, by simp only [List.length_cons]; omega⟩
    rw [List.cons_append, readString, if_neg hc, if_neg hb, if_neg hl, hs']
    rfl

/-- A string ends with its closing quote. -/
theorem readString_last (h : readString m cells = .ok (cs, n)) :
    cells[n - m - 1]? = some (.whole '"') := by
  fun_induction readString m cells generalizing cs n with
  | case1 | case2 | case4 | case6 => cases h
  | case3 m cells =>
    cases h
    rw [Nat.add_sub_cancel_left, Nat.sub_self, List.getElem?_cons_zero]
  | case5 m cells d k he hq ih =>
    obtain ⟨⟨ds, j⟩, hs, e⟩ := except_map_eq_ok h
    cases e
    obtain ⟨-, hlt, -⟩ := @readString_append _ [] _ _ _ hs
    have hi := ih hs
    rw [List.getElem?_drop] at hi
    rwa [show j - m - 1 = k + (j - (m + 1 + k) - 1) + 1 by omega, List.getElem?_cons_succ]
  | case7 m c cells hc hb hl ih =>
    obtain ⟨⟨ds, j⟩, hs, e⟩ := except_map_eq_ok h
    cases e
    obtain ⟨-, hlt, -⟩ := @readString_append _ [] _ _ _ hs
    rw [show j - m - 1 = j - (m + 1) - 1 + 1 by omega, List.getElem?_cons_succ]
    exact ih hs

theorem readBlockString_append (h : readBlockString m cells = .ok (cs, n)) :
    readBlockString m (cells ++ rest) = .ok (cs, n) ∧ m + 3 ≤ n ∧ n ≤ m + cells.length := by
  fun_induction readBlockString m cells generalizing cs n with
  | case1 m cells =>
    cases h
    exact ⟨rfl, by omega, by simp only [List.length_cons]; omega⟩
  | case2 m cells ih =>
    obtain ⟨⟨ds, j⟩, hs, e⟩ := except_map_eq_ok h
    cases e
    obtain ⟨hs', hlt, hle⟩ := ih hs
    refine ⟨?_, by omega, by simp only [List.length_cons]; omega⟩
    simp only [List.cons_append, readBlockString, hs']
    rfl
  | case3 m c cells hq hb ih =>
    obtain ⟨⟨ds, j⟩, hs, e⟩ := except_map_eq_ok h
    cases e
    obtain ⟨hs', hlt, hle⟩ := ih hs
    refine ⟨?_, by omega, by simp only [List.length_cons]; omega⟩
    -- the closing quotes are still to come, so three cells show which quotes stand here
    obtain ⟨x, y, z, ws, rfl⟩ : ∃ x y z ws, cells = x :: y :: z :: ws := by
      match cells, hle with
      | x :: y :: z :: ws, _ => exact ⟨x, y, z, ws, rfl⟩
      | [], hle | [_], hle | [_, _], hle =>
        simp only [List.length_cons, List.length_nil] at hle
        omega
    rw [List.cons_append, readBlockString, hs']
    · rfl
    · rintro tail e rfl
      cases e
      exact hq _ rfl rfl
    · rintro tail e rfl
      cases e
      exact hb _ rfl rfl
  | case4 m c cells => cases h
  | case5 m => cases h

/-- A block string ends with a quote. -/
theorem readBlockString_last (h : readBlockString m cells = .ok (cs, n)) :
    cells[n - m - 1]? = some (.whole '"') := by
  fun_induction readBlockString m cells generalizing cs n with
  | case1 m cells =>
    cases h
    rw [Nat.add_sub_cancel_left]
    rfl
  | case2 m cells ih =>
    obtain ⟨⟨ds, j⟩, hs, e⟩ := except_map_eq_ok h
    cases e
    obtain ⟨-, hlt, -⟩ := @readBlockString_append _ [] _ _ _ hs
    rw [show j - m - 1 = j - (m + 4) - 1 + 1 + 1 + 1 + 1 by omega]
    exact ih hs
  | case3 m c cells hq hb ih =>
    obtain ⟨⟨ds, j⟩, hs, e⟩ := except_map_eq_ok h
    cases e
    obtain ⟨-, hlt, -⟩ := @readBlockString_append _ [] _ _ _ hs
    rw [show j - m - 1 = j - (m + 1) - 1 + 1 by omega, List.getElem?_cons_succ]
    exact ih hs
  | case4 m c cells => cases h
  | case5 m => cases h

theorem readQuoted_append {kind : TokenKind} (h : readQuoted cells = .token kind n)
    (hr : Delimits rest) : readQuoted (cells ++ rest) = .token kind n ∧ n ≤ cells.length := by
  unfold readQuoted at h
  split at h
  · rename_i cells
    split at h
    · rename_i text k hk
      cases h
      obtain ⟨hb, hlt, hle⟩ := @readBlockString_append cells rest _ _ _ hk
      refine ⟨?_, by simp only [List.length_cons]; omega⟩
      simp only [List.cons_append, readQuoted, hb]
    · cases h
  · rename_i hq
    split at h
    · rename_i value k hk
      cases h
      obtain ⟨hs, hlt, hle⟩ := @readString_append cells rest _ _ _ hk
      refine ⟨?_, by omega⟩
      rw [readQuoted, hs]
      intro tail e
      match cells with
      | [] => simp [readString] at hk
      | [x] => cases e; exact hr.ne_quote rfl
      | x :: y :: ws => cases e; exact hq _ rfl
    · cases h

theorem readQuoted_last {kind : TokenKind} (h : readQuoted cells = .token kind n) :
    (.whole '"' :: cells)[n]? = some (.whole '"') := by
  unfold readQuoted at h
  split at h
  · rename_i cells
    split at h
    · rename_i text k hk
      cases h
      obtain ⟨-, hlt, -⟩ := @readBlockString_append cells [] _ _ _ hk
      rw [show k - 1 = k - 3 - 1 + 1 + 1 + 1 by omega]
      exact readBlockString_last hk
    · cases h
  · split at h
    · rename_i value k hk
      cases h
      obtain ⟨-, hlt, -⟩ := @readString_append cells [] _ _ _ hk
      rw [show k - 1 = k - 1 - 1 + 1 by omega]
      exact readString_last hk
    · cases h

end Strings

/-! ## Reading -/

section Read

variable {c : Char} {cells rest : Source} {kind : TokenKind} {n : Nat}

/-- The token that starts with a character, and how many cells behind it belong to it. -/
inductive TokenFrom (c : Char) (cells : Source) : TokenKind → Nat → Prop
  | spread : c = '.' → cells.take 2 = [.whole '.', .whole '.'] →
      TokenFrom c cells (.punctuator .spread) 2
  | quoted {kind : TokenKind} {n : Nat} : c = '"' → readQuoted cells = .token kind n →
      TokenFrom c cells kind n
  | number {kind : TokenKind} {n : Nat} : c ≠ '.' → c ≠ '"' → startsNumber c = true →
      readNumber (.whole c :: cells) = .ok (kind, n) → TokenFrom c cells kind (n - 1)
  | name : c ≠ '.' → c ≠ '"' → startsNumber c = false → isNameStart c = true →
      TokenFrom c cells
        (.name (Source.toString (.whole c :: cells.takeWhile (Cell.satisfies isNameContinue))))
        (cells.takeWhile (Cell.satisfies isNameContinue)).length
  | punctuator {p : Punctuator} : c ≠ '.' → c ≠ '"' → startsNumber c = false →
      isNameStart c = false → punctuator? c = some p → TokenFrom c cells (.punctuator p) 0

/-- A token is read where none of the ignored texts starts. -/
theorem readFrom_token : readFrom c cells = .token kind n ↔
    isIgnored c = false ∧ c ≠ '\r' ∧ c ≠ '#' ∧ TokenFrom c cells kind n := by
  constructor
  · intro h
    unfold readFrom at h
    split at h
    · cases h
    split at h
    · cases h
    split at h
    · cases h
    rename_i hi hcr hcom
    refine ⟨Bool.eq_false_iff.mpr hi, hcr, hcom, ?_⟩
    split at h
    · rename_i hdot
      split at h
      · rename_i hd
        cases h
        exact .spread hdot hd
      · cases h
    rename_i hdot
    split at h
    · rename_i hq
      exact .quoted hq h
    rename_i hq
    split at h
    · rename_i hn
      split at h
      · rename_i hk
        cases h
        exact .number hdot hq hn hk
      · cases h
    rename_i hn
    split at h
    · rename_i hs
      cases h
      exact .name hdot hq (Bool.eq_false_iff.mpr hn) hs
    · rename_i hs
      split at h
      · rename_i hp
        cases h
        exact .punctuator hdot hq (Bool.eq_false_iff.mpr hn) (Bool.eq_false_iff.mpr hs) hp
      · cases h
  · rintro ⟨hi, hcr, hcom, h⟩
    rw [readFrom, if_neg (Bool.eq_false_iff.mp hi), if_neg hcr, if_neg hcom]
    cases h with
    | spread hdot hd => rw [if_pos hdot, if_pos hd]
    | quoted hq h => rw [if_neg (by rw [hq]; decide), if_pos hq, h]
    | number hdot hq hn h => rw [if_neg hdot, if_neg hq, if_pos hn, h]
    | name hdot hq hn hs =>
      rw [if_neg hdot, if_neg hq, if_neg (Bool.eq_false_iff.mp hn), if_pos hs]
    | punctuator hdot hq hn hs hp =>
      rw [if_neg hdot, if_neg hq, if_neg (Bool.eq_false_iff.mp hn),
        if_neg (Bool.eq_false_iff.mp hs), hp]

theorem TokenFrom.append (h : TokenFrom c cells kind n) (hr : Delimits rest) :
    TokenFrom c (cells ++ rest) kind n ∧ n ≤ cells.length := by
  cases h with
  | spread hdot hd =>
    match cells, hd with
    | x :: y :: cells, hd => exact ⟨.spread hdot hd, by simp only [List.length_cons]; omega⟩
    | [], hd | [_], hd => simp at hd
  | quoted hq h =>
    obtain ⟨h', hle⟩ := readQuoted_append h hr
    exact ⟨.quoted hq h', hle⟩
  | number hdot hq hn h =>
    obtain ⟨h', hle, -⟩ := readNumber_append h hr
    rw [List.length_cons] at hle
    exact ⟨.number hdot hq hn h', by omega⟩
  | name hdot hq hn hs =>
    have hm : Misses isNameContinue rest := hr.misses (by decide)
    rw [← takeWhile_front hm]
    refine ⟨.name hdot hq hn hs, ?_⟩
    rw [takeWhile_front hm]
    exact (List.takeWhile_prefix _).length_le
  | punctuator hdot hq hn hs hp => exact ⟨.punctuator hdot hq hn hs hp, Nat.zero_le _⟩

theorem TokenFrom.last (h : TokenFrom c cells kind n) (hcr : c ≠ '\r') :
    (.whole c :: cells)[n]? ≠ some (.whole '\r') := by
  have hfront : (.whole c :: cells)[0]? ≠ some (.whole '\r') := by simpa using hcr
  cases h with
  | spread hdot hd =>
    match cells, hd with
    | x :: y :: cells, hd => simp_all
    | [], hd | [_], hd => simp at hd
  | quoted hq h =>
    rw [hq, readQuoted_last h]
    decide
  | @number _ k hdot hq hn h =>
    obtain ⟨-, -, hp⟩ := readNumber_append h delimits_nil
    intro e
    rcases Nat.eq_zero_or_pos k with rfl | hpos
    · exact hfront e
    · rw [← List.getElem?_take_of_lt (by omega : k - 1 < k)] at e
      exact hp (List.mem_of_getElem? e)
  | name hdot hq hn hs =>
    intro e
    rcases last_takeWhile e with hc | hp
    · cases hc
      exact hcr rfl
    · exact absurd hp (by decide)
  | punctuator hdot hq hn hs hp => exact hfront

/-- A token is read as before when more text follows behind a delimiter. -/
theorem read_append {c : Cell} (h : read c cells = .token kind n) (hr : Delimits rest) :
    read c (cells ++ rest) = .token kind n ∧ n ≤ cells.length := by
  cases c with
  | half c => cases h
  | whole c =>
    obtain ⟨hi, hcr, hcom, ht⟩ := readFrom_token.mp h
    obtain ⟨ht', hle⟩ := ht.append hr
    exact ⟨readFrom_token.mpr ⟨hi, hcr, hcom, ht'⟩, hle⟩

/-- No token ends with a carriage return. -/
theorem read_last {c : Cell} (h : read c cells = .token kind n) :
    (c :: cells)[n]? ≠ some (.whole '\r') := by
  cases c with
  | half c => cases h
  | whole c =>
    obtain ⟨-, hcr, -, ht⟩ := readFrom_token.mp h
    exact ht.last hcr

end Read

end GraphClient
