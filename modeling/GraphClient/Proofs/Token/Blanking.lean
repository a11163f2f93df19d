import GraphClient.Proofs.Token.Cut
import GraphClient.Proofs.Token.Offset

/-!
# Blanking moves faults down a text

Where reading fails behind the first cells of a text, these cells are passed without a fault once
a delimiter is put behind them (`read_past`): strings and numbers look ahead, but never find a
space. So the first fault of a text does not stand above the unit that was blanked
(`lex_blank_le`).
-/

namespace GraphClient

/-! ## How far a reader comes -/

/-- How many cells a reader passes up to its result or its failure. -/
def passedBy {α : Type} (size : α → Nat) : Except Misread α → Nat
  | .ok a => size a
  | .error e => e.passed

theorem passedBy_map (f : List Char → List Char) (x : Except Misread (List Char × Nat)) :
    passedBy Prod.snd (x.map fun r => (f r.1, r.2)) = passedBy Prod.snd x := by
  cases x <;> rfl

/-- A second reader begins where the first one ends. -/
theorem passedBy_le_bind {α β : Type} {f : α → Nat} {g : β → Nat} (x : Except Misread α)
    {k : α → Except Misread β} (h : ∀ a, f a ≤ passedBy g (k a)) :
    passedBy f x ≤ passedBy g (x >>= k) := by
  cases x with
  | error e => exact Nat.le_refl _
  | ok a => exact h a

/-! ## Numbers -/

namespace Front

variable {x y : Source} {f : Front} {e : Misread}

theorem digits_error (h : f.digits = .error e) : e.passed = f.passed := by
  simp only [digits] at h
  split at h <;> cases h
  rfl

theorem passed_le_digits (f : Front) : f.passed ≤ passedBy passed f.digits := by
  simp only [digits]
  split
  · exact Nat.le_refl _
  · exact Nat.le_add_right _ _

theorem passed_le_whole (f : Front) : f.passed ≤ passedBy passed f.whole := by
  unfold whole
  split
  · split <;> exact Nat.le_succ _
  · exact passed_le_digits f

theorem passed_le_fraction (f : Front) : f.passed ≤ passedBy passed f.fraction := by
  unfold fraction
  split
  · exact Nat.le_of_succ_le (passed_le_digits ⟨f.passed + 1, _⟩)
  · exact Nat.le_refl _

theorem passed_le_exponent (f : Front) : f.passed ≤ passedBy passed f.exponent := by
  unfold exponent
  split
  · split
    · exact Nat.le_of_succ_le
        ((optional_goes (by decide) ⟨f.passed + 1, _⟩).within (passed_le_digits _))
    · exact Nat.le_refl _
  · exact Nat.le_refl _

/-- Cells behind which digits are missing are passed before any text. -/
theorem digits_past (h : (f.extend x).digits = .error e) (he : e.passed = f.ends) :
    f.ends ≤ passedBy passed (f.extend y).digits := by
  rw [← he, digits_error h]
  exact passed_le_digits (f.extend y)

theorem whole_past (h : (f.extend x).whole = .error e) (he : e.passed = f.ends) :
    f.ends ≤ passedBy passed (f.extend y).whole := by
  rcases f with ⟨n, cells⟩
  unfold whole at h
  split at h
  · rename_i tail hc
    split at h
    · cases h
      have hle := Nat.le_of_add_le_add_left (Nat.le_of_eq he)
      obtain ⟨more, rfl⟩ := front_of_append [.whole '0'] hc hle
      have hm : 1 = more.length + 1 := Nat.add_left_cancel he
      obtain rfl : more = [] := List.length_eq_zero_iff.mp (by omega)
      simp only [extend, whole, List.append_nil, List.cons_append]
      split <;> exact Nat.le_refl _
    · cases h
  · rw [← he, digits_error h]
    exact passed_le_whole (extend ⟨n, cells⟩ y)

theorem fraction_past (h : (f.extend x).fraction = .error e) (he : e.passed = f.ends) :
    f.ends ≤ passedBy passed (f.extend y).fraction := by
  rcases f with ⟨n, cells⟩
  unfold fraction at h
  split at h
  · rename_i tail hc
    have hp : e.passed = n + 1 := digits_error h
    rw [hp] at he
    have hle := Nat.le_of_add_le_add_left (Nat.le_of_eq he)
    obtain ⟨more, rfl⟩ := front_of_append [.whole '.'] hc hle
    rw [← he]
    exact passed_le_digits ⟨n + 1, more ++ y⟩
  · cases h

theorem exponent_past (h : (f.extend x).exponent = .error e) (he : e.passed = f.ends)
    (hy : Delimits y) : f.ends ≤ passedBy passed (f.extend y).exponent := by
  rcases f with ⟨n, _ | ⟨c, cells⟩⟩
  · exact passed_le_exponent (extend ⟨n, []⟩ y)
  · simp only [exponent, extend, List.cons_append] at h ⊢
    split at h
    · rename_i hc
      have hg : Front.Goes ⟨n, c :: cells⟩ ⟨n + 1, cells⟩ := goes_cons (ne_return hc (by decide))
      have hs := @optional_goes isSign (by decide) ⟨n + 1, cells⟩
      rw [← hg.ends, ← hs.ends] at he ⊢
      have hx : (Front.mk (n + 1) (cells ++ x)).optional isSign =
          (Front.optional isSign ⟨n + 1, cells⟩).extend x :=
        @optional_cut x ⟨n + 1, cells⟩ _ (by
          rw [← hs.ends, ← he, digits_error h]
          exact Nat.le_refl _)
      have hy' : (Front.mk (n + 1) (cells ++ y)).optional isSign =
          (Front.optional isSign ⟨n + 1, cells⟩).extend y :=
        optional_extend (hy.misses (by decide)) ⟨n + 1, cells⟩
      rw [hx] at h
      rw [if_pos hc, hy']
      exact digits_past h he
    · cases h

end Front

section Numbers

variable {cells x y : Source} {w r l : Front}

theorem exponent_le_bind (f : Front) (k : Front → TokenKind) :
    passedBy Front.passed f.exponent ≤ passedBy Prod.snd (f.exponent >>= fun last =>
      if last.rest.head?.any (Cell.satisfies Front.continuesNumber) then
        .error ⟨.digitMissing last.rest.head?, last.passed⟩
      else .ok (k last, last.passed)) := by
  refine passedBy_le_bind _ fun last => ?_
  split <;> exact Nat.le_refl _

theorem exponent_le_readNumber (hw : ((Front.mk 0 cells).optional (· == '-')).whole = .ok w)
    (hr : w.fraction = .ok r) :
    passedBy Front.passed r.exponent ≤ passedBy Prod.snd (readNumber cells) := by
  rw [readNumber, hw]
  simp only [bind, Except.bind, hr]
  exact exponent_le_bind r _

theorem fraction_le_readNumber (hw : ((Front.mk 0 cells).optional (· == '-')).whole = .ok w) :
    passedBy Front.passed w.fraction ≤ passedBy Prod.snd (readNumber cells) := by
  rw [readNumber, hw]
  exact passedBy_le_bind _ fun r =>
    Nat.le_trans (Front.passed_le_exponent r) (exponent_le_bind r _)

theorem whole_le_readNumber (cells : Source) :
    passedBy Front.passed ((Front.mk 0 cells).optional (· == '-')).whole ≤
      passedBy Prod.snd (readNumber cells) :=
  passedBy_le_bind _ fun w => Nat.le_trans (Front.passed_le_fraction w) <|
    passedBy_le_bind _ fun r => Nat.le_trans (Front.passed_le_exponent r) (exponent_le_bind r _)

/-- Cells behind which a number cannot go on are passed before a delimiter. -/
theorem readNumber_past {e : Misread} (h : readNumber (cells ++ x) = .error e)
    (he : e.passed = cells.length) (hy : Delimits y) :
    cells.length ≤ passedBy Prod.snd (readNumber (cells ++ y)) := by
  have hdigit : Misses Char.isDigit y := hy.misses (by decide)
  have hf := @Front.optional_goes (· == '-') (by decide) ⟨0, cells⟩
  have hends : cells.length = (Front.mk 0 cells).ends := (Nat.zero_add _).symm
  have hle : passedBy Prod.snd (readNumber (cells ++ x)) = e.passed := by rw [h]; rfl
  rw [hends, ← hf.ends] at he ⊢
  rw [he] at hle
  have hx : (Front.mk 0 (cells ++ x)).optional (· == '-') =
      ((Front.mk 0 cells).optional (· == '-')).extend x :=
    @Front.optional_cut x ⟨0, cells⟩ _ (by
      rw [← hf.ends, ← hle]
      exact Nat.le_trans (Front.passed_le_whole _) (whole_le_readNumber _))
  have hy' : (Front.mk 0 (cells ++ y)).optional (· == '-') =
      ((Front.mk 0 cells).optional (· == '-')).extend y :=
    Front.optional_extend (hy.misses (by decide)) ⟨0, cells⟩
  generalize (Front.mk 0 cells).optional (· == '-') = f at *
  -- as long as the steps succeed, they are the same in both texts
  rcases hw : (f.extend x).whole with e' | w
  · simp only [readNumber, bind, Except.bind, hx, hw] at h
    cases h
    refine Nat.le_trans (@Front.whole_past _ y _ _ hw he) ?_
    rw [← hy']
    exact whole_le_readNumber _
  rw [← hx] at hw
  have hwl : w.passed ≤ f.ends :=
    hle ▸ Nat.le_trans (Front.passed_le_fraction w) (fraction_le_readNumber hw)
  obtain ⟨w', hw', rfl⟩ := Front.whole_cut (hx ▸ hw) hwl
  have hwy := hy' ▸ (Front.whole_extend hw' hdigit).1
  rcases hr : (w'.extend x).fraction with e' | r
  · simp only [readNumber, bind, Except.bind, hw, hr] at h
    cases h
    rw [← (Front.whole_goes hw').ends] at he ⊢
    exact Nat.le_trans (Front.fraction_past hr he) (fraction_le_readNumber hwy)
  have hrl : r.passed ≤ w'.ends := (Front.whole_goes hw').ends ▸
    hle ▸ Nat.le_trans (Front.passed_le_exponent r) (exponent_le_readNumber hw hr)
  obtain ⟨r', hr', rfl⟩ := Front.fraction_cut hr hrl
  have hry := (Front.fraction_extend hr' hdigit (hy.misses (by decide))).1
  have hrends := ((Front.whole_goes hw').trans (Front.fraction_goes hr')).ends
  have hmono := exponent_le_readNumber hwy hry
  rcases hl : (r'.extend x).exponent with e' | l
  · simp only [readNumber, bind, Except.bind, hw, hr, hl] at h
    cases h
    rw [← hrends] at he ⊢
    exact Nat.le_trans (Front.exponent_past hl he hy) hmono
  simp only [readNumber, bind, Except.bind, hw, hr, hl] at h
  split at h
  · cases h
    obtain ⟨l', hl', rfl⟩ := Front.exponent_cut hl (by rw [hrends]; exact Nat.le_of_eq he)
    have hext := Front.exponent_extend hl' hdigit (hy.misses (by decide)) (hy.misses (by decide))
    rw [hext.1] at hmono
    exact Nat.le_trans (Nat.le_of_eq he.symm) hmono
  · cases h

end Numbers

/-! ## Strings -/

section Strings

variable {cells x y : Source} {m : Nat} {e : Misread}

theorem le_readString (m : Nat) (cells : Source) :
    m ≤ passedBy Prod.snd (readString m cells) := by
  fun_induction readString m cells with
  | case1 | case2 | case4 | case6 => exact Nat.le_refl _
  | case3 => exact Nat.le_succ _
  | case5 m cells d k he hq ih =>
    rw [passedBy_map (d :: ·)]
    omega
  | case7 m c cells hc hb hl ih =>
    rw [passedBy_map (c :: ·)]
    omega

theorem le_readBlockString (m : Nat) (cells : Source) :
    m ≤ passedBy Prod.snd (readBlockString m cells) := by
  fun_induction readBlockString m cells with
  | case1 m cells => exact Nat.le_add_right m 3
  | case2 m cells ih =>
    rw [passedBy_map ('"' :: '"' :: '"' :: ·)]
    omega
  | case3 m c cells hq hb ih =>
    rw [passedBy_map (c :: ·)]
    omega
  | case4 | case5 => exact Nat.le_refl _

/-- A failure behind mapped reading is a failure of that reading. -/
theorem except_map_eq_error {ε α β : Type} {f : α → β} {x : Except ε α} {e : ε}
    (h : x.map f = .error e) : x = .error e := by
  cases x with
  | error e' => cases h; rfl
  | ok a => cases h

/-- Cells behind which a string cannot go on are passed before any text. -/
theorem readString_past (h : readString m (cells ++ x) = .error e)
    (he : e.passed = m + cells.length) :
    m + cells.length ≤ passedBy Prod.snd (readString m (cells ++ y)) := by
  fun_induction readString m cells with
  | case1 m => exact le_readString m y
  | case2 m c cells =>
    rw [List.cons_append, readString] at h
    cases h
    have he : m = m + (cells.length + 1) := he
    omega
  | case3 m cells =>
    rw [List.cons_append, readString, if_pos rfl] at h
    cases h
  | case4 m cells cause hfail hq =>
    rw [List.cons_append, readString, if_neg hq, if_pos rfl] at h
    split at h
    · cases h
      have he : m = m + (cells.length + 1) := he
      omega
    · -- an escape that the cells cut in two would not be followed by a failure within them
      rename_i d k hd
      have hk := le_readString (m + 1 + k) ((cells ++ x).drop k)
      rw [except_map_eq_error h] at hk
      have hk : m + 1 + k ≤ e.passed := hk
      rw [List.length_cons] at he
      rw [readEscape_cut hd (by omega)] at hfail
      cases hfail
  | case5 m cells d k hok hq ih =>
    have hax := @readEscape_append _ x _ _ hok
    have hay := @readEscape_append _ y _ _ hok
    rw [List.cons_append, readString, if_neg hq, if_pos rfl, hax.1] at h
    rw [List.cons_append, readString, if_neg hq, if_pos rfl, hay.1]
    have h := except_map_eq_error h
    rw [List.drop_append_of_le_length hax.2] at h
    simp only [List.drop_append_of_le_length hax.2]
    rw [passedBy_map (d :: ·)]
    rw [List.length_cons] at he ⊢
    have hi := ih h (by rw [he, List.length_drop]; omega)
    rw [List.length_drop] at hi
    omega
  | case6 m c cells hc hb hbr =>
    rw [List.cons_append, readString, if_neg hc, if_neg hb, if_pos hbr] at h
    cases h
    have he : m = m + (cells.length + 1) := he
    omega
  | case7 m c cells hc hb hbr ih =>
    rw [List.cons_append, readString, if_neg hc, if_neg hb, if_neg hbr] at h
    rw [List.cons_append, readString, if_neg hc, if_neg hb, if_neg hbr,
      passedBy_map (c :: ·)]
    rw [List.length_cons] at he ⊢
    have hi := ih (except_map_eq_error h) (by omega)
    omega

/-- Quotes at the front of some cells and a delimiter are quotes of the cells. -/
theorem front_of_delimits (front : Source) {tail : Source} (h : cells ++ y = front ++ tail)
    (hy : Delimits y) (hf : ∀ c ∈ front, c = .whole '"') : ∃ more, cells = front ++ more := by
  rcases Nat.lt_or_ge cells.length front.length with hl | hl
  · obtain ⟨more, rfl⟩ := front_of_append cells h.symm (Nat.le_of_lt hl)
    rw [List.append_assoc, List.append_cancel_left_eq] at h
    obtain ⟨c, more, rfl⟩ : ∃ c cs, more = c :: cs := by
      cases more with
      | nil => simp at hl
      | cons c cs => exact ⟨c, cs, rfl⟩
    have hq : c = .whole '"' := hf c (by simp)
    rw [hq] at h
    exact (hy.ne_quote h).elim
  · exact front_of_append front h hl

/-- Cells behind which a block string cannot go on are passed before a delimiter. -/
theorem readBlockString_past (h : readBlockString m (cells ++ x) = .error e)
    (he : e.passed = m + cells.length) (hy : Delimits y) :
    m + cells.length ≤ passedBy Prod.snd (readBlockString m (cells ++ y)) := by
  fun_induction readBlockString m cells with
  | case1 m cells => cases h
  | case2 m cells ih =>
    simp only [List.cons_append, readBlockString] at h ⊢
    rw [passedBy_map ('"' :: '"' :: '"' :: ·)]
    simp only [List.length_cons] at he ⊢
    have hi := ih (except_map_eq_error h) (by omega)
    omega
  | case3 m c cells hq hb ih =>
    rw [List.length_cons] at he ⊢
    have hx : readBlockString (m + 1) (cells ++ x) = .error e := by
      rw [List.cons_append] at h
      unfold readBlockString at h
      split at h
      · cases h
      · -- the three quotes would be passed, but the failure stands before their end
        rename_i tail e'
        have hm := le_readBlockString (m + 4) tail
        rw [except_map_eq_error h] at hm
        have hm : m + 4 ≤ e.passed := hm
        injection e' with hc e'
        cases hc
        obtain ⟨more, rfl⟩ := front_of_append [.whole '"', .whole '"', .whole '"'] e'
          (by simp only [List.length_cons, List.length_nil]; omega)
        exact (hb more rfl rfl).elim
      · rename_i e'
        cases e'
        exact except_map_eq_error h
      · rename_i e'
        cases e'
      · rename_i e'
        cases e'
    rw [List.cons_append, readBlockString, passedBy_map (c :: ·)]
    · have hi := ih hx (by omega)
      omega
    · rintro tail e' rfl
      obtain ⟨more, rfl⟩ := front_of_delimits [.whole '"', .whole '"'] e' hy (by simp)
      exact hq more rfl rfl
    · rintro tail e' rfl
      obtain ⟨more, rfl⟩ := front_of_delimits [.whole '"', .whole '"', .whole '"'] e' hy
        (by simp)
      exact hb more rfl rfl
  | case4 m c cells =>
    rw [List.cons_append, readBlockString] at h
    cases h
    have he : m = m + (cells.length + 1) := he
    omega
  | case5 m => exact le_readBlockString m y

end Strings

/-! ## Reading -/

/-- How many cells are passed up to the end of what is read, or up to a fault. -/
def Reading.passed : Reading → Nat
  | token _ n | ignored n => n + 1
  | fault _ n => n

/-- What is read of a token that a reader of its rest reads or fails to read. -/
def Reading.ofRest {α : Type} (kind : α → TokenKind) : Except Misread (α × Nat) → Reading
  | .ok (a, n) => .token (kind a) (n - 1)
  | .error m => .fault m.cause m.passed

section Read

variable {c : Cell} {cells rest x y : Source} {cause : FaultCause}

theorem Reading.le_ofRest {α : Type} {kind : α → TokenKind} {r : Except Misread (α × Nat)} {k : Nat}
    (h : k ≤ passedBy Prod.snd r) : k ≤ (Reading.ofRest kind r).passed := by
  rcases r with m | ⟨a, n⟩
  · exact h
  · have h : k ≤ n := h
    rw [ofRest, passed]
    omega

theorem Reading.error_of_fault {α : Type} {kind : α → TokenKind} {r : Except Misread (α × Nat)}
    {n : Nat} (h : Reading.ofRest kind r = .fault cause n) : ∃ m, r = .error m ∧ m.passed = n := by
  rcases r with m | ⟨a, k⟩
  · injection h with hc hp
    exact ⟨m, rfl, hp⟩
  · cases h

theorem readQuoted_of_block : readQuoted (.whole '"' :: .whole '"' :: rest) =
    .ofRest (fun text => .blockString (String.ofList (Block.value text)))
      (readBlockString 3 rest) := by
  rw [readQuoted]
  cases readBlockString 3 rest <;> rfl

theorem readQuoted_of_string (h : ∀ tail, cells ≠ .whole '"' :: .whole '"' :: tail) :
    readQuoted cells =
      .ofRest (fun value => .string (String.ofList value)) (readString 1 cells) := by
  rw [readQuoted]
  · cases readString 1 cells <;> rfl
  · exact h

theorem readQuoted_past (h : readQuoted (cells ++ x) = .fault cause (cells.length + 1))
    (hy : Delimits y) : cells.length + 1 ≤ (readQuoted (cells ++ y)).passed := by
  by_cases hq : ∃ tail, cells ++ x = .whole '"' :: .whole '"' :: tail
  · obtain ⟨tail, e⟩ := hq
    rw [e, readQuoted_of_block] at h
    obtain ⟨m, hm, hp⟩ := Reading.error_of_fault h
    have hl := le_readBlockString 3 tail
    rw [hm] at hl
    have hl : 3 ≤ m.passed := hl
    -- both quotes stand in front of the fault
    obtain ⟨more, rfl⟩ := front_of_append [.whole '"', .whole '"'] e
      (by simp only [List.length_cons, List.length_nil]; omega)
    have e : more ++ x = tail := by simpa using e
    rw [← e] at hm
    have hlen : ([.whole '"', .whole '"'] ++ more : Source).length + 1 = 3 + more.length := by
      simp only [List.length_append, List.length_cons, List.length_nil]
      omega
    rw [hlen] at hp ⊢
    simp only [List.cons_append, List.nil_append, readQuoted_of_block]
    exact Reading.le_ofRest (readBlockString_past hm hp hy)
  · have hx : ∀ tail, cells ++ x ≠ .whole '"' :: .whole '"' :: tail := fun tail e => hq ⟨tail, e⟩
    rw [readQuoted_of_string hx] at h
    obtain ⟨m, hm, hp⟩ := Reading.error_of_fault h
    have hy' : ∀ tail, cells ++ y ≠ .whole '"' :: .whole '"' :: tail := by
      intro tail e
      obtain ⟨more, rfl⟩ := front_of_delimits [.whole '"', .whole '"'] e hy (by simp)
      exact hx (more ++ x) rfl
    rw [readQuoted_of_string hy']
    rw [Nat.add_comm] at hp ⊢
    exact Reading.le_ofRest (@readString_past cells x y _ _ hm hp)

/-- A fault behind the first cells of a text is in a string or in a number. -/
theorem fault_cases {c : Char} {n : Nat} (h : readFrom c cells = .fault cause (n + 1)) :
    c = '"' ∧ readQuoted cells = .fault cause (n + 1) ∨
      ∃ e, readNumber (.whole c :: cells) = .error e ∧ e.passed = n + 1 ∧
        ∀ rest, readFrom c rest = .ofRest id (readNumber (.whole c :: rest)) := by
  unfold readFrom at h
  split at h
  · cases h
  split at h
  · cases h
  split at h
  · cases h
  split at h
  · split at h <;> cases h
  split at h
  · rename_i hq
    exact .inl ⟨hq, h⟩
  split at h
  · rename_i hi hcr hcom hdot hq hn
    split at h
    · cases h
    · rename_i m hm
      injection h with hc hp
      refine .inr ⟨m, hm, hp, fun rest => ?_⟩
      rw [readFrom, if_neg hi, if_neg hcr, if_neg hcom, if_neg hdot, if_neg hq, if_pos hn]
      cases readNumber (.whole c :: rest) <;> rfl
  split at h
  · cases h
  · split at h <;> cases h

/-- Cells behind which reading fails are passed before a delimiter. -/
theorem read_past (h : read c (cells ++ x) = .fault cause (cells.length + 1)) (hy : Delimits y) :
    cells.length + 1 ≤ (read c (cells ++ y)).passed := by
  cases c with
  | half c => cases h
  | whole c =>
    rcases fault_cases h with ⟨rfl, hq⟩ | ⟨e, hn, he, hread⟩
    · exact readQuoted_past hq hy
    · rw [read, hread]
      rw [← List.cons_append] at hn ⊢
      exact Reading.le_ofRest (readNumber_past hn he hy)

end Read

/-! ## The first fault of a text -/

section Faults

variable {gap a b cells x y : Source} {position : Nat} {place : Place} {fault : Fault}

/-- The first fault of a text stands where reading fails behind a scanned text. -/
theorem lexFrom_fault (h : (lexFrom gap position place cells).fault = some fault) :
    ∃ a ts s c bs passed, cells = a ++ c :: bs ∧ Scans (c :: bs) ⟨gap, place⟩ a ts s ∧
      read c bs = .fault fault.cause passed ∧
        fault.position = position + Source.width (a ++ (c :: bs).take passed) := by
  fun_induction lexFrom gap position place cells with
  | case1 => cases h
  | case2 gap position place c rest cause passed hread before =>
    cases h
    exact ⟨[], [], _, c, rest, passed, rfl, .done, hread, rfl⟩
  | case3 gap position place c rest n hread text ih =>
    obtain ⟨a, ts, s, d, bs, passed, he, hs, hf, hp⟩ := ih h
    have hl : (rest.take n).length = n := List.length_take_of_le (read_ignored_le hread)
    have hrest : rest.take n ++ (a ++ d :: bs) = rest := by rw [← he, List.take_append_drop]
    refine ⟨c :: (rest.take n ++ a), ts, s, d, bs, passed, ?_, .ignored ?_ hs, hf, ?_⟩
    · rw [List.cons_append, List.append_assoc, hrest]
    · rw [hrest, hl, hread]
    · rw [hp, Nat.add_assoc, ← Source.width_append]
      simp [text]
  | case4 gap position place c rest kind n hread lexeme later ih =>
    obtain ⟨a, ts, s, d, bs, passed, he, hs, hf, hp⟩ := ih h
    have hl : (rest.take n).length = n :=
      List.length_take_of_le (read_append hread delimits_nil).2
    have hrest : rest.take n ++ (a ++ d :: bs) = rest := by rw [← he, List.take_append_drop]
    refine ⟨c :: (rest.take n ++ a), Spot.token ⟨gap, place⟩ kind (c :: rest.take n) :: ts, s, d,
      bs, passed, ?_, .token ?_ hs, hf, ?_⟩
    · rw [List.cons_append, List.append_assoc, hrest]
    · rw [hrest, hl, hread]
    · rw [hp, Nat.add_assoc, ← Source.width_append]
      simp [lexeme]

/-- No fault stands within a text before another. -/
def Passed (a y : Source) : Prop :=
  ∀ gap position place, ∀ f ∈ (lexFrom gap position place (a ++ y)).fault,
    position + a.width ≤ f.position

theorem passed_nil (y : Source) : Passed [] y := by
  intro gap position place f hf
  obtain ⟨a, ts, s, c, bs, passed, -, -, -, hp⟩ := lexFrom_fault hf
  rw [hp]
  exact Nat.le_add_right _ _

theorem width_le_take {n : Nat} (h : a.length ≤ n) : a.width ≤ Source.width ((a ++ y).take n) := by
  rw [List.take_append, List.take_of_length_le h, Source.width_append]
  exact Nat.le_add_right _ _

/-- A text is passed if what is read at its front reaches beyond it. -/
theorem passed_of_read {c : Cell} (h : cells.length + 1 ≤ (read c (cells ++ y)).passed) :
    Passed (c :: cells) y := by
  intro gap position place f hf
  have hle : ∀ n, cells.length + 1 ≤ n →
      position + Source.width (c :: cells) ≤
        position + Source.width ((c :: (cells ++ y)).take n) :=
    fun n hn => Nat.add_le_add_left (@width_le_take (c :: cells) y n hn) position
  rw [List.cons_append, lexFrom] at hf
  split at hf
  · rename_i cause passed hr
    rw [hr] at h
    cases hf
    exact hle passed h
  · rename_i n hr
    rw [hr] at h
    exact Nat.le_trans (hle (n + 1) h) (passed_nil _ _ _ _ f hf)
  · rename_i kind n hr
    rw [hr] at h
    exact Nat.le_trans (hle (n + 1) h) (passed_nil _ _ _ _ f hf)

theorem Passed.ignored {c : Cell} (h : read c (cells ++ (a ++ y)) = .ignored cells.length)
    (ha : Passed a y) : Passed (c :: (cells ++ a)) y := by
  intro gap position place f hf
  rw [List.cons_append, List.append_assoc, lexFrom_ignored h] at hf
  have hp := ha _ _ _ f hf
  rwa [Nat.add_assoc, ← Source.width_append] at hp

theorem Passed.token {c : Cell} {kind : TokenKind}
    (h : read c (cells ++ (a ++ y)) = .token kind cells.length) (ha : Passed a y) :
    Passed (c :: (cells ++ a)) y := by
  intro gap position place f hf
  rw [List.cons_append, List.append_assoc, lexFrom_token h] at hf
  have hp := ha _ _ _ f hf
  rwa [Nat.add_assoc, ← Source.width_append] at hp

/-- A scanned text is passed before a delimiter other than a line feed, together with cells that
are passed there. -/
theorem Scans.passed {s s' : Spot} {ts : List Token} (h : Scans (b ++ x) s a ts s')
    (hy : Delimits y) (hlf : y.head? ≠ some (.whole '\n')) (hb : Passed b y) :
    Passed (a ++ b) y := by
  induction h with
  | done => exact hb
  | @token s s' kind c cells more ts hr _ ih =>
    have hread : read c (cells ++ (more ++ b ++ y)) = .token kind cells.length := by
      rw [← List.append_assoc more, ← List.append_assoc] at hr
      rw [← List.append_assoc]
      exact read_exchange hr (by rw [List.length_append]; omega) hy
    rw [List.cons_append, List.append_assoc]
    exact .token hread ih
  | @ignored s s' c cells more ts hr _ ih =>
    rw [List.cons_append, List.append_assoc]
    rw [← List.append_assoc more] at hr
    generalize more ++ b = z at hr ih ⊢
    rcases read_ignored hr with ⟨d, rfl, hi, hn⟩ | ⟨rfl, hn⟩ | ⟨rfl, hn⟩
    · refine .ignored ?_ ih
      rw [hn, read, readFrom, if_pos hi]
    · refine .ignored ?_ ih
      rw [hn, read, readFrom, if_neg (by decide), if_pos rfl]
      have hhead : (cells ++ (z ++ y)).head? = some (.whole '\n') ↔
          (cells ++ (z ++ x)).head? = some (.whole '\n') := by
        cases cells with
        | cons d cells => rfl
        | nil =>
          cases z with
          | cons d z => rfl
          | nil =>
            refine ⟨fun e => absurd e hlf, fun e => ?_⟩
            rw [if_pos e] at hn
            cases hn
      simp only [hhead]
    · -- only a comment that ends with the text may go on behind it
      have hcells : cells.takeWhile (Cell.satisfies (!isLineBreak ·)) = cells := by
        rw [takeWhile_cut (Nat.le_of_eq hn.symm)] at hn
        exact (List.takeWhile_prefix _).eq_of_length hn.symm
      have hread : ∀ w, read (.whole '#') (cells ++ w) =
          .ignored (cells.length + (w.takeWhile (Cell.satisfies (!isLineBreak ·))).length) := by
        intro w
        rw [read, readFrom, if_neg (by decide), if_neg (by decide), if_pos rfl,
          List.takeWhile_append, hcells, if_pos rfl, List.length_append]
      cases z with
      | nil =>
        rw [List.append_nil]
        refine passed_of_read ?_
        rw [hread, Reading.passed]
        omega
      | cons d z =>
        refine .ignored ?_ ih
        rw [hread] at hr ⊢
        simp only [List.cons_append, List.takeWhile_cons] at hr ⊢
        split
        · rename_i hd
          rw [if_pos hd] at hr
          simp at hr
        · rfl

theorem blanked_front (c : Cell) : ∃ more, c.blanked = .whole ' ' :: more := by
  cases c with
  | half c => exact ⟨[], rfl⟩
  | whole c =>
    rw [Cell.blanked]
    split
    · exact ⟨[], rfl⟩
    · exact ⟨[.half c], rfl⟩

/-- Blanking the cell of a fault makes no fault above it. -/
theorem lex_blank_le {c : Cell} {fault' : Fault} (h : (lex cells).fault = some fault)
    (hc : cells.cellAt? fault.position = some c)
    (h' : (lex (cells.blank fault.position)).fault = some fault') :
    fault.position ≤ fault'.position := by
  obtain ⟨a, ts, s, d, bs, n, rfl, hs, hread, hp⟩ := lexFrom_fault h
  have hcells : a ++ d :: bs = a ++ (d :: bs).take n ++ (d :: bs).drop n := by
    rw [List.append_assoc, List.take_append_drop]
  rw [hp, hcells, Source.cellAt?_behind] at hc
  obtain ⟨rest, hrest⟩ : ∃ rest, (d :: bs).drop n = c :: rest := by
    cases hd : (d :: bs).drop n with
    | nil => rw [hd] at hc; cases hc
    | cons v rest => rw [hd] at hc; cases hc; exact ⟨rest, rfl⟩
  obtain ⟨more, hblank⟩ := blanked_front c
  rw [hp, hcells, Source.blank_behind, hrest, Source.blank, hblank] at h'
  have hy : Delimits (.whole ' ' :: (more ++ rest)) := delimits_cons (by decide)
  have hfront : Passed ((d :: bs).take n) (.whole ' ' :: (more ++ rest)) := by
    cases n with
    | zero => exact passed_nil _
    | succ n =>
      rw [List.drop_succ_cons] at hrest
      have hl : (bs.take n).length = n := List.length_take_of_le (by
        have := congrArg List.length hrest
        rw [List.length_drop, List.length_cons] at this
        omega)
      have hread : read d (bs.take n ++ c :: rest) =
          .fault fault.cause ((bs.take n).length + 1) := by
        rw [hl, ← hrest, List.take_append_drop, hread]
      rw [List.take_succ_cons]
      exact passed_of_read (read_past hread hy)
  rw [hp]
  rw [← List.take_append_drop n (d :: bs)] at hs
  exact hs.passed hy (by simp) hfront _ _ _ _ h'

end Faults

end GraphClient
