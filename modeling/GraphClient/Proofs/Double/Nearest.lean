import GraphClient.Double.Nearest
import GraphClient.Proofs.Double.Interval

/-!
# A number in the interval of a double rounds to it

Whatever quotient lies in the interval of a finite double other than zero, the nearest double is
that double (`nearestBits_eq`), and so it is for decimals (`nearest_eq`). The unit of a quotient is
the only one in which it has the right size (`HasUnit.unique`). It is that of the double, except for
numbers below a power of two: in half the unit, these round up to that power, which has the same
bits.
-/

namespace GraphClient.Double

variable {x : Double} {num den n : ℕ} {q : ℚ} {u v : ℤ}

/-- Scaling a quotient by a power with any exponent. -/
theorem div_pow_toNat {b : ℕ} (hb : 0 < b) (a c : ℚ) (k : ℤ) :
    a * (b : ℚ) ^ (-k).toNat / (c * (b : ℚ) ^ k.toNat) = a / c / (b : ℚ) ^ k := by
  have hb' : (b : ℚ) ≠ 0 := by exact_mod_cast hb.ne'
  rw [pow_toNat_eq hb k, ← mul_assoc, mul_div_mul_right _ _ (pow_ne_zero _ hb'), div_div]

/-! ## The unit of a quotient -/

/-- The last bit of a number has 52 others in front of it, unless it is the last of all. -/
structure HasUnit (q : ℚ) (u : ℤ) : Prop where
  ge : -1074 ≤ u
  lt : q < 2 ^ (u + 53)
  least : u = -1074 ∨ 2 ^ (u + 52) ≤ q

theorem HasUnit.le (hu : HasUnit q u) (hv : HasUnit q v) : u ≤ v := by
  rcases hu.least with rfl | hq
  · exact hv.ge
  · have := (zpow_lt_zpow_iff_right₀ (by norm_num)).mp (hq.trans_lt hv.lt)
    omega

theorem HasUnit.unique (hu : HasUnit q u) (hv : HasUnit q v) : u = v :=
  le_antisymm (hu.le hv) (hv.le hu)

/-- A number between two powers of two has the unit 52 bits below. -/
theorem hasUnit_max {f : ℤ} (hl : 2 ^ f ≤ q) (hu : q < 2 ^ (f + 1)) :
    HasUnit q (max (f - 52) (-1074)) where
  ge := le_max_right _ _
  lt := hu.trans_le (zpow_le_zpow_right₀ (by norm_num) (by omega))
  least := by
    rcases le_total (f - 52) (-1074) with h | h
    · exact .inl (max_eq_right h)
    · rw [max_eq_left h, sub_add_cancel]
      exact .inr hl

/-- The logarithms of two numbers bound that of their quotient. -/
theorem log2_bounds (hn : 0 < num) (hd : 0 < den) :
    (2 : ℚ) ^ ((num.log2 : ℤ) - den.log2 - 1) ≤ num / den ∧
      (num / den : ℚ) < 2 ^ ((num.log2 : ℤ) - den.log2 + 1) := by
  have hd' : (0 : ℚ) < den := by exact_mod_cast hd
  have hnl : (2 : ℚ) ^ (num.log2 : ℤ) ≤ num := by exact_mod_cast Nat.log2_self_le hn.ne'
  have hnu : (num : ℚ) < 2 ^ ((num.log2 : ℤ) + 1) := by exact_mod_cast Nat.lt_log2_self
  have hdl : (2 : ℚ) ^ (den.log2 : ℤ) ≤ den := by exact_mod_cast Nat.log2_self_le hd.ne'
  have hdu : (den : ℚ) < 2 ^ ((den.log2 : ℤ) + 1) := by exact_mod_cast Nat.lt_log2_self
  have hpos : ∀ k : ℤ, (0 : ℚ) < 2 ^ k := fun k => zpow_pos (by norm_num) k
  rw [le_div_iff₀ hd', div_lt_iff₀ hd']
  constructor
  · calc (2 : ℚ) ^ ((num.log2 : ℤ) - den.log2 - 1) * den
        ≤ 2 ^ ((num.log2 : ℤ) - den.log2 - 1) * 2 ^ ((den.log2 : ℤ) + 1) :=
          mul_le_mul_of_nonneg_left hdu.le (hpos _).le
      _ = 2 ^ (num.log2 : ℤ) := by rw [← zpow_add₀ (by norm_num)]; congr 1; ring
      _ ≤ num := hnl
  · calc (num : ℚ) < 2 ^ ((num.log2 : ℤ) + 1) := hnu
      _ = 2 ^ ((num.log2 : ℤ) - den.log2 + 1) * 2 ^ (den.log2 : ℤ) := by
        rw [← zpow_add₀ (by norm_num)]; congr 1; ring
      _ ≤ 2 ^ ((num.log2 : ℤ) - den.log2 + 1) * den := mul_le_mul_of_nonneg_left hdl (hpos _).le

theorem hasUnit_unitExponent (hn : 0 < num) (hd : 0 < den) :
    HasUnit (num / den) (unitExponent num den) := by
  obtain ⟨hl, hu⟩ := log2_bounds hn hd
  unfold unitExponent
  generalize (num.log2 : ℤ) - den.log2 = log at hl hu ⊢
  have hbelow : num * Nat.pow 2 (-log).toNat < den * Nat.pow 2 log.toNat ↔
      (num / den : ℚ) < 2 ^ log := by
    have hd' : (0 : ℚ) < den * 2 ^ log.toNat := by positivity
    have hlog : (0 : ℚ) < 2 ^ log := zpow_pos (by norm_num) _
    have hscale := div_pow_toNat (b := 2) (by norm_num) num den log
    rw [← Nat.cast_lt (α := ℚ), ← div_lt_one₀ hlog]
    push_cast at hscale ⊢
    rw [← hscale, div_lt_one₀ hd']
    simp
  simp only [hbelow, decide_eq_true_eq]
  split
  · exact hasUnit_max hl (by rwa [sub_add_cancel])
  · exact hasUnit_max (not_lt.mp ‹_›) hu

/-! ## Rounding to a whole number -/

/-- A number rounds to a whole one that is at most a half away, to an odd one at less than a half. -/
structure RoundsTo (q : ℚ) (n : ℕ) : Prop where
  lower : n - 1 / 2 ≤ q
  upper : q ≤ n + 1 / 2
  odd : n % 2 = 1 → n - 1 / 2 < q ∧ q < n + 1 / 2

/-- Only the two whole numbers around a quotient are at most a half away from it. -/
theorem roundEven_of_near (hd : 0 < den) (hl : 2 * (n * den) ≤ 2 * num + den)
    (hu : 2 * num ≤ 2 * (n * den) + den)
    (hodd : n % 2 = 1 → 2 * (n * den) < 2 * num + den ∧ 2 * num < 2 * (n * den) + den) :
    roundEven num den = n := by
  have hdiv := Nat.div_add_mod num den
  have hmod := Nat.mod_lt num hd
  rw [Nat.mul_comm] at hdiv
  unfold roundEven
  simp only
  rcases Nat.lt_or_ge n (num / den) with hlt | hge
  · have := Nat.mul_le_mul_right den (Nat.succ_le_of_lt hlt)
    rw [Nat.succ_mul] at this
    omega
  rcases Nat.eq_or_lt_of_le hge with heq | hgt
  · rw [heq] at hdiv ⊢
    split <;> omega
  rcases Nat.eq_or_lt_of_le (Nat.succ_le_of_lt hgt) with heq | hgt
  · have hn : n * den = num / den * den + den := by rw [← heq, Nat.succ_mul]
    split <;> omega
  · have := Nat.mul_le_mul_right den (Nat.succ_le_of_lt hgt)
    rw [Nat.succ_mul, Nat.succ_mul] at this
    omega

theorem roundEven_eq (hd : 0 < den) (h : RoundsTo (num / den) n) : roundEven num den = n := by
  obtain ⟨hl, hu, hodd⟩ := h
  have hd' : (0 : ℚ) < den := by exact_mod_cast hd
  rw [le_div_iff₀ hd'] at hl
  rw [div_le_iff₀ hd'] at hu
  rw [lt_div_iff₀ hd', div_lt_iff₀ hd'] at hodd
  have hl : (2 * (n * den) : ℚ) ≤ 2 * num + den := by linarith
  have hu : (2 * num : ℚ) ≤ 2 * (n * den) + den := by linarith
  refine roundEven_of_near hd (by exact_mod_cast hl) (by exact_mod_cast hu) fun hn => ?_
  have hl : (2 * (n * den) : ℚ) < 2 * num + den := by linarith [hodd hn]
  have hu : (2 * num : ℚ) < 2 * (n * den) + den := by linarith [hodd hn]
  exact ⟨by exact_mod_cast hl, by exact_mod_cast hu⟩

/-- The bits of what a quotient with a unit rounds to. -/
theorem nearestBits_of_unit (hn : 0 < num) (hd : 0 < den) (hunit : HasUnit (num / den) u)
    (h : RoundsTo (num / den / 2 ^ u) n) :
    nearestBits num den = min ((u + 1074).toNat * 2 ^ 52 + n) infinity.bits.toNat := by
  have hcast : ((num * Nat.pow 2 (-u).toNat : ℕ) : ℚ) / (den * Nat.pow 2 u.toNat : ℕ) =
      num / den / 2 ^ u := by
    simpa using div_pow_toNat (b := 2) (by norm_num) num den u
  have hround : roundEven (num * Nat.pow 2 (-u).toNat) (den * Nat.pow 2 u.toNat) = n :=
    roundEven_eq (Nat.mul_pos hd (Nat.two_pow_pos _)) (hcast ▸ h)
  unfold nearestBits
  rw [(hasUnit_unitExponent hn hd).unique hunit]
  simp only [hround]
  rfl

/-! ## The interval of a double -/

/-- The bits without that of the sign. -/
def magnitudeBits (x : Double) : ℕ := x.exponentField * 2 ^ 52 + x.fraction

theorem quarter_eq (x : Double) : x.quarter = 2 ^ x.exponent / 4 := by
  rw [quarter, zpow_sub₀ (by norm_num)]
  norm_num

theorem exponent_add (x : Double) (k : ℤ) : (2 : ℚ) ^ (x.exponent + k) = 2 ^ k * 2 ^ x.exponent := by
  rw [zpow_add₀ (by norm_num), mul_comm]

theorem Covers.pos (hx : x.isZero = false) (h : x.Covers q) : 0 < q := by
  have hl : (0 : ℚ) < x.lower := by exact_mod_cast lower_pos hx
  exact (mul_pos hl x.quarter_pos).trans_le h.ends.1

/-- In its unit, what lies in the interval of a double rounds to the significand. -/
theorem Covers.roundsTo (hx : x.isZero = false) (h : x.Covers q) :
    RoundsTo (q / 2 ^ x.exponent) x.significand := by
  have he : (0 : ℚ) < 2 ^ x.exponent := zpow_pos (by norm_num) _
  have hl : 4 * x.significand - 2 ≤ (x.lower : ℚ) := by
    rcases lower_cases hx with ⟨hl, -⟩ | ⟨hl, -⟩
    · exact hl.ge
    · linarith
  have hl := mul_le_mul_of_nonneg_right hl x.quarter_pos.le
  have hu := x.upper_eq
  have hends := h.ends
  rw [quarter_eq] at hl hends
  rw [hu] at hends
  refine ⟨(le_div_iff₀ he).mpr (by linarith), (div_le_iff₀ he).mpr (by linarith), fun hodd => ?_⟩
  rw [Covers, if_neg (by omega), quarter_eq, hu] at h
  exact ⟨(lt_div_iff₀ he).mpr (by linarith), (div_lt_iff₀ he).mpr (by linarith)⟩

/-- What rounds to a double and is not below the power of two below it has its unit. -/
theorem Covers.hasUnit (hx : x.isZero = false) (h : x.Covers q)
    (hq : x.exponent = -1074 ∨ 2 ^ (x.exponent + 52) ≤ q) : HasUnit q x.exponent where
  ge := exponent_ge x
  lt := by
    have he : (0 : ℚ) < 2 ^ x.exponent := zpow_pos (by norm_num) _
    have hs : (x.significand : ℚ) ≤ 2 ^ 53 - 1 := by
      have := x.significand_lt
      have : ((x.significand + 1 : ℕ) : ℚ) ≤ (2 ^ 53 : ℕ) := by exact_mod_cast this
      push_cast at this
      linarith
    have hu := (div_le_iff₀ he).mp (h.roundsTo hx).upper
    have hs := mul_le_mul_of_nonneg_right hs he.le
    rw [exponent_add]
    norm_num at hs ⊢
    linarith
  least := hq

theorem magnitudeBits_eq (x : Double) :
    (x.exponent + 1074).toNat * 2 ^ 52 + x.significand = x.magnitudeBits := by
  unfold exponent significand magnitudeBits
  split <;> omega

/-- Twice the least significand in half the unit: its last bit carries into the exponent. -/
theorem magnitudeBits_carry (hs : x.significand = 2 ^ 52) (he : -1074 ≤ x.exponent - 1) :
    (x.exponent - 1 + 1074).toNat * 2 ^ 52 + 2 ^ 53 = x.magnitudeBits := by
  rw [← magnitudeBits_eq, hs]
  omega

theorem magnitudeBits_lt (hf : x.isFinite = true) : x.magnitudeBits < infinity.bits.toNat := by
  have hfield : x.exponentField < 2048 := Nat.mod_lt _ (by norm_num)
  have hfraction := x.fraction_lt
  rw [isFinite, bne_iff_ne] at hf
  show x.magnitudeBits < 0x7FF0000000000000
  unfold magnitudeBits
  omega

/-- What rounds to a double and is below the power of two below it: the double is that power, and
in half its unit the number rounds to the same power. -/
theorem Covers.below (hx : x.isZero = false) (h : x.Covers q) (he : x.exponent ≠ -1074)
    (hq : q < 2 ^ (x.exponent + 52)) :
    x.significand = 2 ^ 52 ∧ HasUnit q (x.exponent - 1) ∧
      RoundsTo (q / 2 ^ (x.exponent - 1)) (2 ^ 53) := by
  have hpos : (0 : ℚ) < 2 ^ x.exponent := zpow_pos (by norm_num) _
  have hends := h.ends.1
  rw [quarter_eq] at hends
  have hlt := hq
  rw [exponent_add] at hlt
  norm_num at hlt
  rcases lower_cases hx with ⟨hl, hs⟩ | ⟨hl, hs, hge⟩
  · -- The interval of another significand begins above the power of two.
    have hs : (2 ^ 52 + 1 : ℚ) ≤ x.significand := by
      exact_mod_cast Nat.succ_le_of_lt (hs.resolve_right he)
    have := mul_le_mul_of_nonneg_right hs hpos.le
    rw [hl] at hends
    linarith
  rw [hl, hs] at hends
  push_cast at hends
  have hunit : HasUnit q (x.exponent - 1) := by
    refine ⟨by omega, ?_, .inr ?_⟩
    · rwa [show x.exponent - 1 + 53 = x.exponent + 52 by ring]
    · rw [show x.exponent - 1 + 52 = x.exponent + 51 by ring, exponent_add]
      norm_num
      linarith
  have hhalf : (0 : ℚ) < 2 ^ (x.exponent - 1) := zpow_pos (by norm_num) _
  have hpow : (2 : ℚ) ^ (x.exponent - 1) = 2 ^ x.exponent / 2 := by
    rw [zpow_sub_one₀ (by norm_num), div_eq_mul_inv]
  refine ⟨hs, hunit, (le_div_iff₀ hhalf).mpr ?_, (div_le_iff₀ hhalf).mpr ?_, by norm_num⟩
  · rw [hpow]
    push_cast
    linarith
  · rw [hpow]
    push_cast
    linarith

/-- A quotient that lies in the interval of a double rounds to it. -/
theorem nearestBits_eq (hf : x.isFinite = true) (hx : x.isZero = false) (hd : 0 < den)
    (h : x.Covers (num / den)) : nearestBits num den = x.magnitudeBits := by
  have hd' : (0 : ℚ) < den := by exact_mod_cast hd
  have hn : 0 < num := by
    have := (lt_div_iff₀ hd').mp (h.pos hx)
    rw [zero_mul] at this
    exact_mod_cast this
  by_cases hq : x.exponent = -1074 ∨ (2 : ℚ) ^ (x.exponent + 52) ≤ num / den
  · rw [nearestBits_of_unit hn hd (h.hasUnit hx hq) (h.roundsTo hx), magnitudeBits_eq,
      min_eq_left (magnitudeBits_lt hf).le]
  · obtain ⟨he, hlt⟩ := not_or.mp hq
    obtain ⟨hs, hunit, hround⟩ := h.below hx he (not_le.mp hlt)
    rw [nearestBits_of_unit hn hd hunit hround, magnitudeBits_carry hs hunit.ge,
      min_eq_left (magnitudeBits_lt hf).le]

/-! ## Decimals -/

theorem two_pow_lt_ten_pow : (2 : ℚ) ^ 1076 < 10 ^ 331 :=
  calc (2 : ℚ) ^ 1076 ≤ 2 ^ (33 * 33) := pow_le_pow_right₀ (by norm_num) (by norm_num)
    _ = (2 ^ 33) ^ 33 := pow_mul _ _ _
    _ ≤ (10 ^ 10) ^ 33 := pow_le_pow_left₀ (by norm_num) (by norm_num) _
    _ = 10 ^ (10 * 33) := (pow_mul _ _ _).symm
    _ < 10 ^ 331 := pow_lt_pow_right₀ (by norm_num) (by norm_num)

theorem two_pow_le_ten_pow : (2 : ℚ) ^ 1024 ≤ 10 ^ 310 :=
  calc (2 : ℚ) ^ 1024 = 2 * (2 ^ 93) ^ 11 := by rw [← pow_mul, ← pow_succ']
    _ ≤ 2 * (10 ^ 28) ^ 11 := by
      have : (2 : ℚ) ^ 93 ≤ 10 ^ 28 := by norm_num
      gcongr
    _ ≤ 10 ^ 2 * (10 ^ 28) ^ 11 := by gcongr; norm_num
    _ = 10 ^ 310 := by rw [← pow_mul, ← pow_add]

/-- The interval of a finite double is within the range in which decimals are rounded. -/
theorem Covers.range (hf : x.isFinite = true) (hx : x.isZero = false) (h : x.Covers q) :
    10 ^ (-331 : ℤ) < q ∧ q < 10 ^ (310 : ℤ) := by
  have hq := x.quarter_pos
  constructor
  · have hl : (1 : ℚ) ≤ x.lower := by exact_mod_cast lower_pos hx
    calc (10 : ℚ) ^ (-331 : ℤ) = (10 ^ 331)⁻¹ := by rw [zpow_neg, zpow_ofNat]
      _ < (2 ^ 1076)⁻¹ := inv_strictAnti₀ (by positivity) two_pow_lt_ten_pow
      _ = 2 ^ (-1076 : ℤ) := by rw [zpow_neg, zpow_ofNat]
      _ ≤ x.quarter := zpow_le_zpow_right₀ (by norm_num) (by have := exponent_ge x; omega)
      _ ≤ x.lower * x.quarter := le_mul_of_one_le_left hq.le hl
      _ ≤ q := h.ends.1
  · have hexp : x.exponent ≤ 971 := by
      have hfield : x.exponentField < 2048 := Nat.mod_lt _ (by norm_num)
      rw [isFinite, bne_iff_ne] at hf
      unfold exponent
      split <;> omega
    have hu : (x.upper : ℚ) < 2 ^ 55 := by
      have hs := x.significand_lt
      have : x.upper < 2 ^ 55 := by
        unfold upper quarters
        omega
      exact_mod_cast this
    calc q ≤ x.upper * x.quarter := h.ends.2
      _ < 2 ^ 55 * x.quarter := mul_lt_mul_of_pos_right hu hq
      _ ≤ 2 ^ 55 * 2 ^ (969 : ℤ) := by
        have := zpow_le_zpow_right₀ (a := (2 : ℚ)) (by norm_num) (show x.exponent - 2 ≤ 969 by omega)
        exact mul_le_mul_of_nonneg_left this (by norm_num)
      _ = 2 ^ 1024 := (pow_add _ 55 969).symm
      _ ≤ 10 ^ (310 : ℤ) := two_pow_le_ten_pow

/-- The bits of a decimal in the interval of a double. -/
theorem decimalBits_eq {d : Decimal} (hf : x.isFinite = true) (hx : x.isZero = false)
    (h : x.Covers d.value) : decimalBits d = x.magnitudeBits := by
  have hd : d.digits ≠ 0 := fun h0 => by
    have := h.pos hx
    simp [Decimal.value, h0] at this
  obtain ⟨hl, hu⟩ := Decimal.value_bounds hd
  obtain ⟨hlow, hhigh⟩ := h.range hf hx
  have hpoint := (zpow_lt_zpow_iff_right₀ (by norm_num)).mp (hlow.trans hu)
  have hpoint' := (zpow_lt_zpow_iff_right₀ (by norm_num)).mp (hl.trans_lt hhigh)
  unfold decimalBits
  simp only
  rw [if_neg (by omega), if_neg (by omega)]
  refine nearestBits_eq hf hx (Nat.pow_pos (by norm_num)) ?_
  rwa [Decimal.quotient_eq]

/-- A decimal in the interval of a double is read as that double. -/
theorem nearest_eq {d : Decimal} (hf : x.isFinite = true) (hx : x.isZero = false)
    (h : x.Covers d.value) : nearest x.isNegative d = x := by
  have hbits : x.magnitudeBits + (if x.isNegative then 0x8000000000000000 else 0) =
      x.bits.toNat := by
    have := x.bits.toNat_lt
    unfold magnitudeBits isNegative exponentField fraction
    simp only [decide_eq_true_eq]
    split <;> omega
  rw [nearest, decimalBits_eq hf hx h, hbits, UInt64.ofNat_toNat]

end GraphClient.Double
