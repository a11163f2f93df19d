import GraphClient.Json.Scalar
import GraphClient.Proofs.Double.Layout
import GraphClient.Proofs.Double.Nearest

/-!
# A double is read back from its text

The text of a finite double, read as a number, is that double again, and a zero without its sign
(`ofText?_text`): no two other doubles have the same text (`text_inj`). Each layout of a decimal is
read as a decimal of the same value, though perhaps not with the same digits (`decimal_layout`);
and as the shortest decimal of a double lies in its interval, every decimal of that value rounds to
the double.
-/

namespace GraphClient

open Numeral

namespace Json

variable {w ds fs cs rest : List Char} {flaw : Flaw} {k : Int}

theorem digitsValue_eq (ds : List Char) : digitsValue ds = Nat.ofDigitChars 10 ds 0 := by
  simp only [digitsValue, Nat.ofDigitChars, Nat.mul_comm]
  rfl

theorem digitsValue_toDigits (n : Nat) : digitsValue (Nat.toDigits 10 n) = n := by
  rw [digitsValue_eq, Nat.ofDigitChars_ten_toDigits]

theorem digitsValue_zeros_append (n : Nat) (ds : List Char) :
    digitsValue (List.replicate n '0' ++ ds) = digitsValue ds := by
  rw [digitsValue_eq, digitsValue_eq, Nat.ofDigitChars_append, Nat.ofDigitChars_replicate_zero,
    Nat.mul_zero]

theorem digitsValue_append_zeros (n : Nat) (ds : List Char) :
    digitsValue (ds ++ List.replicate n '0') = digitsValue ds * 10 ^ n := by
  rw [digitsValue_eq, digitsValue_eq, Nat.ofDigitChars_append, Nat.ofDigitChars_replicate_zero,
    Nat.mul_comm]

/-! ## The parts of a number -/

/-- A text that does not go on with a digit. -/
def Stops (rest : List Char) : Prop := ∀ c ∈ rest.head?, c.isDigit = false

theorem stops_nil : Stops [] := fun _ h => by cases h

theorem stops_cons {c : Char} (h : c.isDigit = false) : Stops (c :: rest) := by
  rintro _ ⟨⟩
  exact h

theorem digits_append (h : Digits ds) (hr : Stops rest) :
    digits flaw (ds ++ rest) = .ok (ds, rest) := by
  have hrest : rest.takeWhile Char.isDigit = [] ∧ rest.dropWhile Char.isDigit = rest := by
    cases rest with
    | nil => exact ⟨rfl, rfl⟩
    | cons c rest => simp [hr c rfl]
  unfold digits
  rw [List.takeWhile_append_of_pos h.2, List.dropWhile_append_of_pos h.2, hrest.1, hrest.2,
    List.append_nil]
  split
  · exact absurd rfl h.1
  · rfl

theorem whole_append (h : Whole w) (hr : Stops rest) : whole (w ++ rest) = .ok (w, rest) := by
  rcases h with rfl | ⟨hd, hz⟩
  · cases rest with
    | nil => rfl
    | cons c rest => simp [whole, hr c rfl]
  · rw [← @digits_append w rest .minusAlone hd hr]
    unfold whole
    split
    · rename_i he
      obtain ⟨c, ds, rfl, -⟩ := hd.cons
      obtain ⟨rfl, -⟩ := List.cons.inj he
      exact absurd rfl hz
    · rfl

/-- An exponent as it is laid out, or none. -/
inductive Powers : List Char → Int → Prop where
  | none : Powers [] 0
  | signed (k : Int) :
      Powers ('e' :: (if k < 0 then '-' else '+') :: Nat.toDigits 10 k.natAbs) k

theorem Powers.stops (h : Powers cs k) : Stops cs ∧ cs.head? ≠ some '.' := by
  cases h with
  | none => exact ⟨stops_nil, nofun⟩
  | signed => exact ⟨stops_cons rfl, by simp⟩

theorem Powers.exponent_eq (h : Powers cs k) : exponent cs = .ok (k, []) := by
  cases h with
  | none => rfl
  | signed k =>
    have hsign : sign ((if k < 0 then '-' else '+') :: Nat.toDigits 10 k.natAbs) =
        (decide (k < 0), Nat.toDigits 10 k.natAbs) := by
      by_cases hk : k < 0 <;> simp [sign, hk]
    have hdigits := @digits_append (Nat.toDigits 10 k.natAbs) [] .exponent
      (digits_toDigits _) stops_nil
    rw [List.append_nil] at hdigits
    simp only [exponent, true_or, if_true, hsign, hdigits, Except.map, digitsValue_toDigits,
      decide_eq_true_eq]
    split <;> congr 2 <;> omega

/-- A whole number with an exponent. -/
theorem decimal_whole (hw : Whole w) (hp : Powers cs k) :
    decimal (w ++ cs) = .ok (⟨digitsValue w, k⟩, []) := by
  have hf : fraction cs = .ok ([], cs) := by
    unfold fraction
    split
    · exact absurd rfl hp.stops.2
    · rfl
  rw [decimal, whole_append hw hp.stops.1]
  simp [bind, Except.bind, pure, Except.pure, hf, hp.exponent_eq]

/-- A number with a point: its digits are those on both sides. -/
theorem decimal_point (hw : Whole w) (hf : Digits fs) (hp : Powers cs k) :
    decimal (w ++ '.' :: (fs ++ cs)) = .ok (⟨digitsValue (w ++ fs), k - fs.length⟩, []) := by
  rw [decimal, whole_append hw (stops_cons rfl)]
  simp [bind, Except.bind, pure, Except.pure, fraction, digits_append hf hp.stops.1,
    hp.exponent_eq]

end Json

namespace Decimal

variable {d : Decimal}

/-- With one digit before the point, and its exponent. -/
theorem decimal_scientific {ds : List Char} (h : Digits ds) (hz : ds.head? ≠ some '0') (k : Int) :
    Json.decimal (scientific ds k) =
      .ok (⟨Json.digitsValue ds, k - (ds.length - 1 : Nat)⟩, []) := by
  have hpos := List.length_pos_iff.mpr h.1
  have hk := Json.Powers.signed k
  unfold scientific
  split
  · rename_i hl
    have hd := Json.decimal_whole (.inr ⟨h, hz⟩) hk
    rw [show ds.length - 1 = 0 by omega, List.take_of_length_le hl]
    simpa using hd
  · rename_i hl
    have hd := Json.decimal_point (whole_take h hz Nat.one_pos)
      (digits_drop (k := 1) h (by omega)) hk
    rw [List.take_append_drop, List.length_drop] at hd
    simpa using hd

/-- What is laid out is read as a decimal of the same value. -/
theorem decimal_layout (hd : d.digits ≠ 0) :
    ∃ r : Decimal, Json.decimal d.layout = .ok (r, []) ∧ r.value = d.value := by
  have hds := digits_toDigits d.digits
  have hz := head_toDigits hd
  have hvalue := Json.digitsValue_toDigits d.digits
  unfold layout
  simp only
  generalize Nat.toDigits 10 d.digits = ds at hds hz hvalue ⊢
  split
  · have hw : Whole (ds ++ List.replicate d.power.toNat '0') :=
      .inr ⟨hds.append isDigit_replicate, by rwa [hds.head?_append]⟩
    have hr := Json.decimal_whole hw .none
    obtain ⟨p, hp⟩ := Int.eq_ofNat_of_zero_le (show 0 ≤ d.power by omega)
    rw [List.append_nil, Json.digitsValue_append_zeros, hvalue] at hr
    refine ⟨_, hr, ?_⟩
    rw [value, value, hp]
    push_cast
    simp
  -- Otherwise the digits are read as they are, and their power is the same.
  have hsame {power : Int} (h : power = d.power) : (⟨d.digits, power⟩ : Decimal).value = d.value := by
    rw [h]
  split
  · have hr := Json.decimal_point (whole_take (k := (ds.length + d.power).toNat) hds hz (by omega))
      (digits_drop (k := (ds.length + d.power).toNat) hds (by omega)) .none
    rw [List.append_nil, List.take_append_drop, hvalue, List.length_drop] at hr
    exact ⟨_, hr, hsame (by omega)⟩
  split
  · have hzeros : Digits (List.replicate (-(ds.length + d.power)).toNat '0' ++ ds) :=
      ⟨by simp [hds.1], List.forall_mem_append.mpr ⟨isDigit_replicate, hds.2⟩⟩
    have hr := Json.decimal_point (.inl rfl) hzeros .none
    rw [List.append_nil, List.length_append, List.length_replicate, ← List.append_assoc,
      show ['0'] = List.replicate 1 '0' from rfl, List.replicate_append_replicate,
      Json.digitsValue_zeros_append, hvalue] at hr
    exact ⟨_, hr, hsame (by omega)⟩
  · have hr := decimal_scientific hds hz (ds.length + d.power - 1)
    have hpos := List.length_pos_iff.mpr hds.1
    rw [hvalue] at hr
    exact ⟨_, hr, hsame (by omega)⟩

end Decimal

namespace Double

variable {x y : Double}

/-- The number that a text of nothing else writes. -/
def ofText? (text : String) : Option Double :=
  match Json.scalar text.toList with
  | .ok (.number x, []) => some x
  | _ => none

/-- The same number, a zero without its sign. -/
def unsignedZero (x : Double) : Double := if x.isZero then ⟨0⟩ else x

theorem isFinite_of_isZero (hx : x.isZero = true) : x.isFinite = true := by
  rw [isZero, beq_iff_eq] at hx
  unfold significand at hx
  rw [isFinite, bne_iff_ne]
  split at hx <;> omega

theorem toList_text (hf : x.isFinite = true) : x.text.toList =
    if x.isNegative = true ∧ ¬ x.isZero = true then '-' :: x.shortest.layout
    else x.shortest.layout := by
  have hnan : x.isNaN = false := by
    rw [isFinite, bne_iff_ne] at hf
    rw [isNaN, beq_eq_false_iff_ne.mpr hf]
    rfl
  unfold text
  simp only [hnan, hf, Bool.false_eq_true, if_false, if_true]
  split
  · rw [String.toList_append, String.toList_ofList, String.toList_ofList]
    rfl
  · rw [String.toList_ofList]

theorem text_zero (hx : x.isZero = true) : x.text = "0" := by
  refine String.ext ?_
  rw [toList_text (isFinite_of_isZero hx), if_neg (fun h => h.2 hx), shortest, if_pos hx]
  rfl

/-- A number without a sign is read as a scalar. -/
theorem scalar_digit {c : Char} {cs : List Char} (hc : c.isDigit = true) :
    Json.scalar (c :: cs) = (Json.decimal (c :: cs)).map fun r =>
      (.number (.nearest false r.1), r.2) := by
  have hne : ∀ d : Char, d.isDigit = false → c ≠ d := fun d => ne_of_isDigit hc
  simp [Json.scalar, hc, hne '"' rfl, hne 't' rfl, hne 'f' rfl, hne 'n' rfl, hne '-' rfl]

theorem scalar_text (hf : x.isFinite = true) (hx : x.isZero = false) :
    Json.scalar x.text.toList = .ok (.number x, []) := by
  obtain ⟨r, hr, hv⟩ := Decimal.decimal_layout (digits_shortest hx)
  have hnearest : nearest x.isNegative r = x := nearest_eq hf hx (hv ▸ covers_shortest hx)
  cases hs : x.isNegative with
  | true =>
    rw [hs] at hnearest
    rw [toList_text hf, if_pos ⟨hs, by simp [hx]⟩]
    show (Json.decimal x.shortest.layout).map _ = _
    rw [hr, Except.map, hnearest]
  | false =>
    rw [hs] at hnearest
    obtain ⟨w, f, e, hw, -, -, hl⟩ := laid_shortest x
    obtain ⟨c, cs, rfl, hc⟩ := hw.digits.cons
    rw [hl, List.cons_append] at hr
    rw [toList_text hf, if_neg (by simp [hs]), hl, List.cons_append, scalar_digit hc, hr, Except.map,
      hnearest]

/-- The text of a finite double is read as that double, the sign of a zero apart. -/
theorem ofText?_text (hf : x.isFinite = true) : ofText? x.text = some x.unsignedZero := by
  cases hx : x.isZero with
  | true =>
    rw [text_zero hx, unsignedZero, if_pos hx]
    rfl
  | false =>
    rw [unsignedZero, if_neg (by simp [hx]), ofText?, scalar_text hf hx]

/-- Two finite doubles with one text differ at most in the sign of a zero. -/
theorem text_inj (hx : x.isFinite = true) (hy : y.isFinite = true) (h : x.text = y.text) :
    x.unsignedZero = y.unsignedZero := by
  have hr := ofText?_text hx
  rw [h, ofText?_text hy] at hr
  exact (Option.some.inj hr).symm

end Double

end GraphClient
