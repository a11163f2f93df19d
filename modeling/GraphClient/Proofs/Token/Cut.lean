import GraphClient.Proofs.Token.Locality

/-!
# Tokens are cut off a text

The converse of reading locally: a token that ends within the first cells of a text is read from
these cells alone (`read_cut`). So it is for escapes, strings (`readString_cut`,
`readBlockString_cut`) and numbers (`readNumber_cut`). What follows such a token may then be
changed for anything that begins with a delimiter (`read_exchange`).
-/

namespace GraphClient

/-- The front of a text that ends within its first cells is the front of these. -/
theorem front_of_append (front : Source) {cells rest tail : Source}
    (h : cells ++ rest = front ++ tail) (hl : front.length ≤ cells.length) :
    ∃ more, cells = front ++ more :=
  have hp : front <+: cells := List.prefix_of_prefix_length_le ⟨tail, h.symm⟩ ⟨rest, rfl⟩ hl
  hp.imp fun _ e => e.symm

/-! ## Classes -/

section Classes

variable {p : Char → Bool} {cells rest : Source}

theorem takeWhile_cut
    (h : ((cells ++ rest).takeWhile (Cell.satisfies p)).length ≤ cells.length) :
    (cells ++ rest).takeWhile (Cell.satisfies p) = cells.takeWhile (Cell.satisfies p) := by
  rw [List.takeWhile_append] at h ⊢
  split at h
  · rename_i hall
    rw [List.length_append] at h
    have hnone : rest.takeWhile (Cell.satisfies p) = [] := List.length_eq_zero_iff.mp (by omega)
    rw [if_pos hall, hnone, List.append_nil]
    exact ((List.takeWhile_prefix _).eq_of_length hall).symm
  · rename_i hsome
    rw [if_neg hsome]

theorem dropWhile_cut
    (h : ((cells ++ rest).takeWhile (Cell.satisfies p)).length ≤ cells.length) :
    (cells ++ rest).dropWhile (Cell.satisfies p) = cells.dropWhile (Cell.satisfies p) ++ rest := by
  have hw := List.takeWhile_append_dropWhile (p := Cell.satisfies p) (l := cells ++ rest)
  have hc := List.takeWhile_append_dropWhile (p := Cell.satisfies p) (l := cells)
  rw [takeWhile_cut h] at hw
  rw [← List.append_right_inj (cells.takeWhile (Cell.satisfies p)), hw, ← List.append_assoc, hc]

end Classes

/-! ## Numbers -/

theorem misses_nil (p : Char → Bool) : Misses p [] := nofun

namespace Front

variable {rest : Source} {f g : Front}

/-- How many cells are passed at the end of a text. -/
def ends (f : Front) : Nat := f.passed + f.rest.length

theorem Goes.ends (h : f.Goes g) : g.ends = f.ends := by
  obtain ⟨cells, hr, hp, -⟩ := h
  rw [Front.ends, Front.ends, hr, hp, List.length_append]
  omega

theorem Goes.within {n : Nat} (h : f.Goes g) (hl : g.passed ≤ n) : f.passed ≤ n := by
  obtain ⟨cells, -, hp, -⟩ := h
  omega

theorem digits_goes (h : f.digits = .ok g) : f.Goes g := (digits_extend h (misses_nil _)).2

theorem whole_goes (h : f.whole = .ok g) : f.Goes g := (whole_extend h (misses_nil _)).2

theorem fraction_goes (h : f.fraction = .ok g) : f.Goes g :=
  (fraction_extend h (misses_nil _) (misses_nil _)).2

theorem exponent_goes (h : f.exponent = .ok g) : f.Goes g :=
  (exponent_extend h (misses_nil _) (misses_nil _) (misses_nil _)).2

theorem optional_cut {p : Char → Bool} (hl : ((f.extend rest).optional p).passed ≤ f.ends) :
    (f.extend rest).optional p = (f.optional p).extend rest := by
  rcases f with ⟨n, _ | ⟨c, cells⟩⟩
  · refine optional_extend (fun c hc => Bool.eq_false_iff.mpr fun hp => ?_) ⟨n, []⟩
    obtain ⟨cells, rfl⟩ := List.head?_eq_some_iff.mp hc
    simp only [extend, optional, List.nil_append, if_pos hp, ends, List.length_nil] at hl
    omega
  · simp only [extend, optional, List.cons_append]
    split <;> rfl

theorem digits_cut (h : (f.extend rest).digits = .ok g) (hl : g.passed ≤ f.ends) :
    ∃ g', f.digits = .ok g' ∧ g = g'.extend rest := by
  rcases f with ⟨n, cells⟩
  rw [extend] at h
  simp only [digits] at h
  by_cases hne : ((cells ++ rest).takeWhile (Cell.satisfies Char.isDigit)).isEmpty = true
  · rw [if_pos hne] at h
    cases h
  · rw [if_neg hne] at h
    cases h
    have hcut : ((cells ++ rest).takeWhile (Cell.satisfies Char.isDigit)).length ≤
        cells.length := Nat.le_of_add_le_add_left hl
    rw [takeWhile_cut hcut] at hne ⊢
    rw [dropWhile_cut hcut]
    exact ⟨⟨_, _⟩, if_neg hne, rfl⟩

theorem whole_cut (h : (f.extend rest).whole = .ok g) (hl : g.passed ≤ f.ends) :
    ∃ g', f.whole = .ok g' ∧ g = g'.extend rest := by
  rcases f with ⟨n, cells⟩
  unfold whole at h
  split at h
  · rename_i tail e
    split at h
    · cases h
    · rename_i hd
      cases h
      obtain ⟨more, rfl⟩ := front_of_append [.whole '0'] e (Nat.le_of_add_le_add_left hl)
      cases e
      have hn : ¬ (more.head?.any (Cell.satisfies Char.isDigit) = true) := by
        cases more with
        | nil => exact Bool.false_ne_true
        | cons c more => exact hd
      exact ⟨⟨n + 1, more⟩, if_neg hn, rfl⟩
  · rename_i hz
    obtain ⟨g', hg, e⟩ := digits_cut h hl
    refine ⟨g', ?_, e⟩
    unfold whole
    split
    · rename_i tail e
      cases e
      exact (hz (tail ++ rest) rfl).elim
    · exact hg

theorem fraction_cut (h : (f.extend rest).fraction = .ok g) (hl : g.passed ≤ f.ends) :
    ∃ g', f.fraction = .ok g' ∧ g = g'.extend rest := by
  rcases f with ⟨n, cells⟩
  unfold fraction at h
  split at h
  · rename_i tail e
    obtain ⟨more, rfl⟩ := front_of_append [.whole '.'] e
      (Nat.le_of_add_le_add_left ((digits_goes h).within hl))
    cases e
    have hg : Front.Goes ⟨n, .whole '.' :: more⟩ ⟨n + 1, more⟩ := goes_cons (by decide)
    exact @digits_cut rest ⟨n + 1, more⟩ g h (by rw [hg.ends]; exact hl)
  · rename_i hz
    cases h
    refine ⟨⟨n, cells⟩, ?_, rfl⟩
    unfold fraction
    split
    · rename_i tail e
      cases e
      exact (hz (tail ++ rest) rfl).elim
    · rfl

theorem exponent_cut (h : (f.extend rest).exponent = .ok g) (hl : g.passed ≤ f.ends) :
    ∃ g', f.exponent = .ok g' ∧ g = g'.extend rest := by
  rcases f with ⟨n, _ | ⟨c, cells⟩⟩
  · refine ⟨_, rfl, ?_⟩
    unfold exponent at h
    split at h
    · split at h
      · -- the exponent's letter would be one cell too far
        exact absurd ((optional_goes (by decide) _).within ((digits_goes h).within hl))
          (Nat.not_succ_le_self n)
      · cases h
        rfl
    · cases h
      rfl
  · simp only [exponent, extend, List.cons_append] at h ⊢
    split at h
    · rename_i hc
      rw [if_pos hc]
      have hends : (⟨n, c :: cells⟩ : Front).ends = (⟨n + 1, cells⟩ : Front).ends := by
        simp only [ends, List.length_cons]
        omega
      rw [hends] at hl
      have ho : (Front.extend ⟨n + 1, cells⟩ rest).optional isSign =
          (Front.optional isSign ⟨n + 1, cells⟩).extend rest :=
        optional_cut ((digits_goes h).within hl)
      have hg := @optional_goes isSign (by decide) ⟨n + 1, cells⟩
      rw [extend] at ho
      rw [ho] at h
      exact digits_cut h (by rw [hg.ends]; exact hl)
    · rename_i hc
      cases h
      rw [if_neg hc]
      exact ⟨_, rfl, rfl⟩

end Front

theorem readNumber_cut {cells rest : Source} {kind : TokenKind} {n : Nat}
    (h : readNumber (cells ++ rest) = .ok (kind, n)) (hl : n ≤ cells.length) :
    readNumber cells = .ok (kind, n) := by
  simp only [readNumber, bind, Except.bind] at h
  split at h
  · cases h
  rename_i whole hw
  split at h
  · cases h
  rename_i fraction hf
  split at h
  · cases h
  rename_i last he
  split at h
  · cases h
  rename_i hc
  cases h
  -- each step ends before the number does, and so within the cells
  have hlast : last.passed ≤ (Front.mk 0 cells).ends := by simpa [Front.ends] using hl
  have hfraction := (Front.exponent_goes he).within hlast
  have hwhole := (Front.fraction_goes hf).within hfraction
  have hfront : (Front.mk 0 (cells ++ rest)).optional (· == '-') =
      (Front.optional (· == '-') ⟨0, cells⟩).extend rest :=
    @Front.optional_cut rest ⟨0, cells⟩ _ ((Front.whole_goes hw).within hwhole)
  have hgo := @Front.optional_goes (· == '-') (by decide) ⟨0, cells⟩
  rw [hfront] at hw
  obtain ⟨whole', hw', rfl⟩ := Front.whole_cut hw (by rw [hgo.ends]; exact hwhole)
  have hgw := hgo.trans (Front.whole_goes hw')
  obtain ⟨fraction', hf', rfl⟩ := Front.fraction_cut hf (by rw [hgw.ends]; exact hfraction)
  have hgf := hgw.trans (Front.fraction_goes hf')
  obtain ⟨last', he', rfl⟩ := Front.exponent_cut he (by rw [hgf.ends]; exact hlast)
  have hn : ¬ (last'.rest.head?.any (Cell.satisfies Front.continuesNumber) = true) := by
    intro hm
    rcases last' with ⟨k, _ | ⟨c, more⟩⟩
    · cases hm
    · exact hc hm
  simp only [readNumber, bind, Except.bind, hw', hf', he', if_neg hn]
  rfl

/-! ## Strings -/

section Escapes

variable {cells rest : Source} {c : Char} {n m : Nat}

theorem hexQuad?_cut (h : hexQuad? (cells ++ rest) = some n) (hl : 4 ≤ cells.length) :
    hexQuad? cells = some n := by
  match cells, hl with
  | a :: b :: c :: d :: cells, _ => exact h

theorem trailingEscape?_cut (h : trailingEscape? m (cells ++ rest) = some c)
    (hl : 6 ≤ cells.length) : trailingEscape? m cells = some c := by
  unfold trailingEscape? at h
  split at h
  · rename_i digits e
    obtain ⟨cells, rfl⟩ := front_of_append [.whole '\\', .whole 'u'] e
      (by simp only [List.length_cons, List.length_nil]; omega)
    cases e
    split at h
    · rename_i k hk
      simp only [List.length_append, List.length_cons, List.length_nil] at hl
      have hq : hexQuad? cells = some k := hexQuad?_cut hk (by omega)
      simp only [List.cons_append, List.nil_append, trailingEscape?, hq]
      exact h
    · cases h
  · cases h

theorem quadEscape?_cut (h : quadEscape? (cells ++ rest) = some (c, n)) (hl : n ≤ cells.length) :
    quadEscape? cells = some (c, n) := by
  unfold quadEscape? at h
  split at h
  · rename_i k hk
    split at h
    · rename_i hv
      cases h
      simp only [quadEscape?, hexQuad?_cut hk hl, if_pos hv]
    · rename_i hv
      split at h
      · rename_i hlead
        obtain ⟨d, hd, e⟩ := Option.map_eq_some_iff.mp h
        injection e with hc hn
        subst hc hn
        have h4 : 4 ≤ cells.length := by omega
        rw [List.drop_append_of_le_length h4] at hd
        have ht : trailingEscape? k (cells.drop 4) = some d :=
          trailingEscape?_cut hd (by rw [List.length_drop]; omega)
        simp only [quadEscape?, hexQuad?_cut hk h4, if_neg hv, if_pos hlead, ht, Option.map_some]
      · cases h
  · cases h

theorem bracedEscape_cut {value : Nat} (h : bracedEscape value m (cells ++ rest) = .ok (c, n))
    (hl : n ≤ m + cells.length) : bracedEscape value m cells = .ok (c, n) := by
  induction cells generalizing value m with
  | nil =>
    have hm := (@bracedEscape_append _ [] _ _ _ _ h).2.1
    rw [List.length_nil] at hl
    omega
  | cons d cells ih =>
    simp only [List.cons_append, bracedEscape, List.length_cons] at h hl ⊢
    split at h
    · rename_i hd
      rw [if_pos hd]
      exact h
    · rename_i hd
      rw [if_neg hd]
      split at h
      · cases h
      · rename_i k hk
        split at h
        · cases h
        · rename_i hv
          rw [if_neg hv]
          exact ih h (by omega)

theorem readEscape_cut (h : readEscape (cells ++ rest) = .ok (c, n)) (hl : n ≤ cells.length) :
    readEscape cells = .ok (c, n) := by
  -- the letter behind the backslash belongs to the escape, so it stands within the cells
  have hpos : 0 < n := by
    unfold readEscape at h
    repeat' split at h
    all_goals
      cases h
      try omega
  match cells, hl with
  | [], hl =>
    rw [List.length_nil] at hl
    omega
  | x :: cells, hl =>
    rw [List.cons_append] at h
    rw [List.length_cons] at hl
    unfold readEscape at h
    split at h
    · rename_i digits e
      injection e with hx e
      subst hx
      split at h
      · rename_i d k hk
        cases h
        obtain ⟨cells, rfl⟩ := front_of_append [.whole '\x7b'] e
          (by simp only [List.length_cons, List.length_nil]; omega)
        cases e
        simp only [List.length_append, List.length_cons, List.length_nil] at hl
        have hb : bracedEscape 0 0 cells = .ok (c, k) := bracedEscape_cut hk (by omega)
        simp only [List.cons_append, List.nil_append, readEscape, hb]
      · cases h
    · rename_i digits hbrace e
      injection e with hx e
      subst hx
      subst e
      split at h
      · rename_i d k hk
        cases h
        have hd : ∀ ds, cells ≠ .whole '\x7b' :: ds := by
          rintro ds rfl
          exact hbrace (ds ++ rest) rfl
        rw [readEscape_quad hd, quadEscape?_cut hk (by omega)]
      · cases h
    · rename_i d cells' hbrace hu e
      injection e with hx e
      subst hx
      split at h
      · rename_i e' he
        cases h
        rw [readEscape_letter (fun e => hu e), he]
      · cases h
    · cases h

end Escapes

section Strings

variable {cells rest : Source} {cs : List Char} {n m : Nat}

theorem readString_cut (h : readString m (cells ++ rest) = .ok (cs, n))
    (hl : n ≤ m + cells.length) : readString m cells = .ok (cs, n) := by
  fun_induction readString m cells generalizing cs n with
  | case1 m =>
    have hm := (@readString_append _ [] _ _ _ h).2.1
    rw [List.length_nil] at hl
    omega
  | case2 m c cells =>
    rw [List.cons_append, readString] at h
    cases h
  | case3 m cells =>
    rw [List.cons_append, readString, if_pos rfl] at h
    exact h
  | case4 m cells cause he hq =>
    rw [List.cons_append, readString, if_neg hq, if_pos rfl] at h
    split at h
    · cases h
    · rename_i d k hd
      obtain ⟨⟨ds, j⟩, hs, e⟩ := except_map_eq_ok h
      cases e
      have hlt := (@readString_append _ [] _ _ _ hs).2.1
      rw [List.length_cons] at hl
      rw [readEscape_cut hd (by omega)] at he
      cases he
  | case5 m cells d k he hq ih =>
    obtain ⟨he', hk⟩ := @readEscape_append _ rest _ _ he
    rw [List.cons_append, readString, if_neg hq, if_pos rfl, he'] at h
    obtain ⟨⟨ds, j⟩, hs, e⟩ := except_map_eq_ok h
    cases e
    rw [List.drop_append_of_le_length hk] at hs
    rw [List.length_cons] at hl
    rw [ih hs (by rw [List.length_drop]; omega)]
    rfl
  | case6 m c cells hc hb hbr =>
    rw [List.cons_append, readString, if_neg hc, if_neg hb, if_pos hbr] at h
    cases h
  | case7 m c cells hc hb hbr ih =>
    rw [List.cons_append, readString, if_neg hc, if_neg hb, if_neg hbr] at h
    obtain ⟨⟨ds, j⟩, hs, e⟩ := except_map_eq_ok h
    cases e
    rw [List.length_cons] at hl
    rw [ih hs (by omega)]
    rfl

theorem readBlockString_cut (h : readBlockString m (cells ++ rest) = .ok (cs, n))
    (hl : n ≤ m + cells.length) : readBlockString m cells = .ok (cs, n) := by
  fun_induction readBlockString m cells generalizing cs n with
  | case1 m cells => exact h
  | case2 m cells ih =>
    simp only [List.cons_append, readBlockString] at h
    obtain ⟨⟨ds, j⟩, hs, e⟩ := except_map_eq_ok h
    cases e
    simp only [List.length_cons] at hl
    rw [ih hs (by omega)]
    rfl
  | case3 m c cells hq hb ih =>
    rw [List.cons_append] at h
    rw [List.length_cons] at hl
    unfold readBlockString at h
    split at h
    · rename_i tail e
      cases h
      injection e with hc e
      cases hc
      obtain ⟨more, rfl⟩ := front_of_append [.whole '"', .whole '"'] e
        (by simp only [List.length_cons, List.length_nil]; omega)
      exact (hq more rfl rfl).elim
    · rename_i tail e
      obtain ⟨⟨ds, j⟩, hs, e'⟩ := except_map_eq_ok h
      cases e'
      have hlt := (@readBlockString_append _ [] _ _ _ hs).2.1
      injection e with hc e
      cases hc
      obtain ⟨more, rfl⟩ := front_of_append
        [.whole '"', .whole '"', .whole '"'] e
        (by simp only [List.length_cons, List.length_nil]; omega)
      exact (hb more rfl rfl).elim
    · rename_i c' tail _ _ e
      cases e
      obtain ⟨⟨ds, j⟩, hs, e'⟩ := except_map_eq_ok h
      cases e'
      rw [ih hs (by omega)]
      rfl
    · rename_i e
      cases e
    · rename_i e
      cases e
  | case4 m c cells =>
    rw [List.cons_append, readBlockString] at h
    cases h
  | case5 m =>
    have hm := (@readBlockString_append _ [] _ _ _ h).2.1
    rw [List.length_nil] at hl
    omega

theorem readQuoted_cut {kind : TokenKind} (h : readQuoted (cells ++ rest) = .token kind n)
    (hl : n ≤ cells.length) : readQuoted cells = .token kind n := by
  unfold readQuoted at h
  split at h
  · rename_i tail e
    split at h
    · rename_i text k hk
      cases h
      have hlt := (@readBlockString_append _ [] _ _ _ hk).2.1
      obtain ⟨cells, rfl⟩ := front_of_append [.whole '"', .whole '"'] e
        (by simp only [List.length_cons, List.length_nil]; omega)
      cases e
      simp only [List.length_append, List.length_cons, List.length_nil] at hl
      have hb : readBlockString 3 cells = .ok (text, k) := readBlockString_cut hk (by omega)
      simp only [List.cons_append, List.nil_append, readQuoted, hb]
    · cases h
  · rename_i hq
    split at h
    · rename_i value k hk
      cases h
      have hlt := (@readString_append _ [] _ _ _ hk).2.1
      rw [readQuoted, readString_cut hk (by omega)]
      rintro tail rfl
      exact hq (tail ++ rest) rfl
    · cases h

end Strings

/-! ## Reading -/

section Read

variable {cells rest : Source} {kind : TokenKind} {n : Nat}

theorem TokenFrom.cut {c : Char} (h : TokenFrom c (cells ++ rest) kind n) (hl : n ≤ cells.length) :
    TokenFrom c cells kind n := by
  cases h with
  | spread hdot hd =>
    match cells, hl with
    | x :: y :: cells, _ => exact .spread hdot hd
  | quoted hq h => exact .quoted hq (readQuoted_cut h hl)
  | @number _ k hdot hq hn h =>
    rw [← List.cons_append] at h
    exact .number hdot hq hn (readNumber_cut h (by rw [List.length_cons]; omega))
  | name hdot hq hn hs =>
    rw [takeWhile_cut hl]
    exact .name hdot hq hn hs
  | punctuator hdot hq hn hs hp => exact .punctuator hdot hq hn hs hp

theorem read_cut {c : Cell} (h : read c (cells ++ rest) = .token kind n) (hl : n ≤ cells.length) :
    read c cells = .token kind n := by
  cases c with
  | half c => cases h
  | whole c =>
    obtain ⟨hi, hcr, hcom, ht⟩ := readFrom_token.mp h
    exact readFrom_token.mpr ⟨hi, hcr, hcom, ht.cut hl⟩

/-- What follows a token may be changed for anything that begins with a delimiter. -/
theorem read_exchange {c : Cell} {rest' : Source} (h : read c (cells ++ rest) = .token kind n)
    (hl : n ≤ cells.length) (hr : Delimits rest') : read c (cells ++ rest') = .token kind n :=
  (read_append (read_cut h hl) hr).1

end Read

end GraphClient
