import GraphClient.Proofs.Token.Lexemes

/-!
# Numerals

A numeral is an optional minus, digits without a zero before other digits, perhaps a point with
digits, and perhaps an exponent with digits (`Numeral`). It is read back as one number, an int
if it has neither point nor exponent (`scans_numeral`).
-/

namespace GraphClient

namespace Numeral

/-- Digits, at least one. -/
def Digits (cs : List Char) : Prop := cs ≠ [] ∧ ∀ c ∈ cs, c.isDigit = true

/-- A zero, or digits that start with another. -/
def Whole (cs : List Char) : Prop := cs = ['0'] ∨ Digits cs ∧ cs.head? ≠ some '0'

/-- A point and digits, or nothing. -/
inductive Fraction : List Char → Prop where
  | none : Fraction []
  | point {ds : List Char} : Digits ds → Fraction ('.' :: ds)

/-- A letter, perhaps a sign, and digits, or nothing. -/
inductive Exponent : List Char → Prop where
  | none : Exponent []
  | plain {m : Char} {ds : List Char} : Front.isExponentMark m = true → Digits ds →
      Exponent (m :: ds)
  | signed {m s : Char} {ds : List Char} : Front.isExponentMark m = true →
      Front.isSign s = true → Digits ds → Exponent (m :: s :: ds)

end Numeral

/-- A minus, or nothing. -/
def IsMinus (cs : List Char) : Prop := cs = [] ∨ cs = ['-']

/-- A number by its parts. -/
structure Numeral where
  minus : List Char
  whole : List Char
  fraction : List Char
  exponent : List Char
  isMinus : IsMinus minus
  isWhole : Numeral.Whole whole
  isFraction : Numeral.Fraction fraction
  isExponent : Numeral.Exponent exponent

namespace Numeral

/-- Its characters. -/
def chars (n : Numeral) : List Char := n.minus ++ (n.whole ++ (n.fraction ++ n.exponent))

def kind (n : Numeral) : TokenKind := if n.fraction ++ n.exponent = [] then .int else .float

variable {cs ds : List Char} {rest : Source} {n : Nat}

theorem Digits.cons (h : Digits cs) : ∃ c ds, cs = c :: ds ∧ c.isDigit = true := by
  obtain ⟨hne, hd⟩ := h
  cases cs with
  | nil => exact absurd rfl hne
  | cons c ds => exact ⟨c, ds, rfl, hd c List.mem_cons_self⟩

theorem Whole.digits (h : Whole cs) : Digits cs := by
  rcases h with rfl | h
  · exact ⟨List.cons_ne_nil _ _, fun c hc => by rw [List.mem_singleton.mp hc]; rfl⟩
  · exact h.1

/-! ## Reading the parts -/

theorem misses_cons {p : Char → Bool} {c : Char} (h : p c = false) :
    Misses p (.whole c :: rest) := by
  intro d hd
  cases hd
  exact h

theorem misses_nil {p : Char → Bool} : Misses p [] := fun _ hc => by cases hc

theorem ne_of_isDigit {c d : Char} (h : c.isDigit = true) (hd : d.isDigit = false) : c ≠ d := by
  rintro rfl
  rw [h] at hd
  cases hd

theorem front_digits (h : Digits ds) (hr : Misses Char.isDigit rest) :
    Front.digits ⟨n, ds.map Cell.whole ++ rest⟩ = .ok ⟨n + ds.length, rest⟩ := by
  have ht := takeWhile_whole h.2 hr
  have hd := @List.takeWhile_append_dropWhile _ (Cell.satisfies Char.isDigit)
    (ds.map Cell.whole ++ rest)
  rw [ht, List.append_right_inj] at hd
  have hne : (ds.map Cell.whole).isEmpty = false := by simpa using h.1
  simp only [Front.digits, ht, hd, hne, List.length_map]
  rfl

theorem front_whole (h : Whole cs) (hr : Misses Char.isDigit rest) :
    Front.whole ⟨n, cs.map Cell.whole ++ rest⟩ = .ok ⟨n + cs.length, rest⟩ := by
  rcases h with rfl | ⟨hd, hz⟩
  · have hany : rest.head?.any (Cell.satisfies Char.isDigit) = false := by
      cases rest with
      | nil => rfl
      | cons c rest => exact hr c rfl
    show (if rest.head?.any (Cell.satisfies Char.isDigit) then _ else _) = _
    rw [hany]
    rfl
  · rw [← front_digits hd hr]
    unfold Front.whole
    split
    · rename_i he
      obtain ⟨c, ds, rfl, -⟩ := hd.cons
      cases he
      exact absurd rfl hz
    · rfl

theorem front_fraction (h : Fraction cs) (hr : Misses Char.isDigit rest)
    (hp : Misses (· == '.') rest) :
    Front.fraction ⟨n, cs.map Cell.whole ++ rest⟩ = .ok ⟨n + cs.length, rest⟩ := by
  cases h with
  | none =>
    unfold Front.fraction
    split
    · rename_i he
      exact absurd (hp (.whole '.') (by rw [show rest = _ from he]; rfl)) (by decide)
    · rfl
  | point hd =>
    refine (@front_digits _ _ (n + 1) hd hr).trans ?_
    rw [List.length_cons, Nat.add_assoc, Nat.add_comm 1]

theorem front_mark {m : Char} (h : Front.isExponentMark m = true) :
    Front.exponent ⟨n, .whole m :: rest⟩ = (Front.optional Front.isSign ⟨n + 1, rest⟩).digits :=
  if_pos h

theorem front_exponent (h : Exponent cs) :
    Front.exponent ⟨n, cs.map Cell.whole⟩ = .ok ⟨n + cs.length, []⟩ := by
  have digits : ∀ {m : Nat} {ds : List Char}, Digits ds →
      Front.digits ⟨m, ds.map Cell.whole⟩ = .ok ⟨m + ds.length, []⟩ := fun hd => by
    simpa using @front_digits _ [] _ hd misses_nil
  cases h with
  | none => rfl
  | @plain m ds hm hd =>
    obtain ⟨c, cs, rfl, hc⟩ := hd.cons
    have hs : Front.isSign c = false := by
      rw [Front.isSign, Bool.or_eq_false_iff, beq_eq_false_iff_ne, beq_eq_false_iff_ne]
      exact ⟨ne_of_isDigit hc (by decide), ne_of_isDigit hc (by decide)⟩
    have ho : Front.optional Front.isSign ⟨n + 1, (c :: cs).map Cell.whole⟩ =
        ⟨n + 1, (c :: cs).map Cell.whole⟩ := if_neg (by simp [Cell.satisfies, hs])
    rw [List.map_cons, front_mark hm, ho, digits hd, @List.length_cons _ m, Nat.add_assoc,
      Nat.add_comm 1]
  | @signed m s ds hm hs hd =>
    have ho : Front.optional Front.isSign ⟨n + 1, (s :: ds).map Cell.whole⟩ =
        ⟨n + 1 + 1, ds.map Cell.whole⟩ := if_pos hs
    rw [List.map_cons, front_mark hm, ho, digits hd, List.length_cons, List.length_cons]
    congr 2
    omega

/-! ## Reading a numeral -/

theorem isExponentMark_misses {m : Char} (h : Front.isExponentMark m = true) :
    m.isDigit = false ∧ (m == '.') = false := by
  rw [Front.isExponentMark, Bool.or_eq_true, beq_iff_eq, beq_iff_eq] at h
  rcases h with rfl | rfl <;> decide

theorem Exponent.misses (h : Exponent cs) : Misses Char.isDigit (cs.map Cell.whole) ∧
    Misses (· == '.') (cs.map Cell.whole) := by
  cases h with
  | none => exact ⟨misses_nil, misses_nil⟩
  | plain hm _ | signed hm _ _ =>
    exact ⟨misses_cons (isExponentMark_misses hm).1, misses_cons (isExponentMark_misses hm).2⟩

theorem Fraction.misses {es : List Char} (h : Fraction cs) (he : Exponent es) :
    Misses Char.isDigit (cs.map Cell.whole ++ es.map Cell.whole) := by
  cases h with
  | none => exact he.misses.1
  | point _ => exact misses_cons (by decide)

theorem front_minus {w : List Char} (h : IsMinus cs) (hw : Whole w) :
    Front.optional (· == '-') ⟨0, cs.map Cell.whole ++ (w.map Cell.whole ++ rest)⟩ =
      ⟨cs.length, w.map Cell.whole ++ rest⟩ := by
  rcases h with rfl | rfl
  · obtain ⟨c, ds, rfl, hc⟩ := hw.digits.cons
    have hm : (c == '-') = false := beq_eq_false_iff_ne.mpr (ne_of_isDigit hc (by decide))
    exact if_neg (by simp [Cell.satisfies, hm])
  · rfl

theorem readNumber_chars (x : Numeral) :
    readNumber (x.chars.map Cell.whole) = .ok (x.kind, x.chars.length) := by
  have hw := @front_whole x.whole (x.fraction.map Cell.whole ++ x.exponent.map Cell.whole)
    x.minus.length x.isWhole (x.isFraction.misses x.isExponent)
  have hf := @front_fraction x.fraction (x.exponent.map Cell.whole)
    (x.minus.length + x.whole.length) x.isFraction x.isExponent.misses.1 x.isExponent.misses.2
  have he := @front_exponent x.exponent
    (x.minus.length + x.whole.length + x.fraction.length) x.isExponent
  simp only [readNumber, chars, List.map_append, front_minus x.isMinus x.isWhole, bind,
    Except.bind, hw, hf, he, List.head?_nil, Option.any_none, Bool.false_eq_true, if_false,
    List.length_append, kind, List.append_eq_nil_iff, ← Nat.add_assoc]
  congr 3
  rw [← List.length_eq_zero_iff, ← List.length_eq_zero_iff, eq_iff_iff]
  omega

/-- Whether a character stands before the point and the exponent. -/
def isIntChar (c : Char) : Bool := c.isDigit || c == '-'

/-- The kind of a numeral shows in its characters. -/
theorem kind_eq (x : Numeral) : x.kind = if x.chars.all isIntChar then .int else .float := by
  have hint : (x.minus ++ x.whole).all isIntChar = true := by
    rw [List.all_append, Bool.and_eq_true, List.all_eq_true, List.all_eq_true]
    refine ⟨fun c hc => ?_, fun c hc => by simp [isIntChar, x.isWhole.digits.2 c hc]⟩
    rcases x.isMinus with hm | hm <;> rw [hm] at hc
    · cases hc
    · rw [List.mem_singleton.mp hc]
      rfl
  have hmark : ∀ {m : Char}, Front.isExponentMark m = true → isIntChar m = false := fun hm => by
    rw [Front.isExponentMark, Bool.or_eq_true, beq_iff_eq, beq_iff_eq] at hm
    rcases hm with rfl | rfl <;> rfl
  have hall : x.chars.all isIntChar = (x.fraction ++ x.exponent).all isIntChar := by
    rw [chars, ← List.append_assoc, List.all_append, hint, Bool.true_and]
  rw [kind, hall]
  generalize x.fraction = f, x.exponent = e, x.isFraction = hf, x.isExponent = he
  cases hf with
  | point hd => simp [isIntChar]
  | none =>
    cases he with
    | none => rfl
    | plain hm hd => simp [hmark hm]
    | signed hm hs hd => simp [hmark hm]

theorem starts (x : Numeral) : ∃ c cs, x.chars = c :: cs ∧ startsNumber c = true := by
  obtain ⟨c, cs, hw, hc⟩ := x.isWhole.digits.cons
  rcases x.isMinus with hm | hm
  · exact ⟨c, _, by rw [chars, hm, hw]; rfl, by rw [startsNumber, hc]; rfl⟩
  · exact ⟨'-', _, by rw [chars, hm]; rfl, rfl⟩

/-- A numeral is read back as one number. -/
theorem scans_numeral (x : Numeral) {s : Spot} (hr : Delimits rest) :
    Scans rest s (x.chars.map Cell.whole) [s.token x.kind (x.chars.map Cell.whole)]
      (s.past (x.chars.map Cell.whole)) := by
  obtain ⟨c, cs, hx, hc⟩ := x.starts
  obtain ⟨hi, hcr, hcom, hdot, hq⟩ := misses_marked hc (by decide)
  have hread := (readNumber_append x.readNumber_chars hr).1
  rw [hx, List.map_cons] at hread ⊢
  refine .lexeme (readFrom_token.mpr ⟨hi, hcr, hcom, ?_⟩)
  simpa using TokenFrom.number hdot hq hc hread

end Numeral

end GraphClient
