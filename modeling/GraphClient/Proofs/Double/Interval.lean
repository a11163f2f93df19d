import GraphClient.Proofs.Double.Shortest
import Mathlib.Algebra.Order.Field.Power
import Mathlib.Data.Rat.Cast.Order
import Mathlib.Tactic.FieldSimp
import Mathlib.Tactic.Linarith

/-!
# The shortest decimal rounds to its double

The numbers that round to a double other than zero form an interval, its ends included when the
significand is even (`Covers`). The decimals that the search admits are those in the interval
(`admits_iff`). With seventeen digits, the two ends are more than half a step of the grid away from
the double, so that one of its two neighbours on the grid is admitted (`hit?_ne_none`): the search
always ends with a hit, and the shortest decimal lies in the interval (`covers_shortest`).
-/

namespace GraphClient

/-- A power with any exponent, as a quotient of powers with natural ones. -/
theorem pow_toNat_eq {b : ℕ} (hb : 0 < b) (k : ℤ) :
    (b : ℚ) ^ k.toNat = (b : ℚ) ^ k * (b : ℚ) ^ (-k).toNat := by
  have hb : (b : ℚ) ≠ 0 := by exact_mod_cast hb.ne'
  obtain ⟨n, rfl | rfl⟩ := k.eq_nat_or_neg
  · simp
  · simp [hb]

namespace Decimal

variable {d : Decimal}

/-- The number that a decimal stands for. -/
def value (d : Decimal) : ℚ := d.digits * 10 ^ d.power

theorem value_reduced (d : Decimal) : d.reduced.value = d.value := by
  unfold reduced
  split
  · rename_i h
    have hd : (d.digits : ℚ) = (d.digits / 10 : ℕ) * 10 := by
      exact_mod_cast (Nat.div_mul_cancel (Nat.dvd_of_mod_eq_zero h)).symm
    rw [value, value, hd, zpow_add_one₀ (by norm_num), mul_assoc, mul_comm (10 : ℚ)]
  · rfl

/-- A decimal as a quotient of whole numbers. -/
theorem quotient_eq (d : Decimal) :
    ((d.digits * Nat.pow 10 d.power.toNat : ℕ) : ℚ) / (Nat.pow 10 (-d.power).toNat : ℕ) =
      d.value := by
  have h := pow_toNat_eq (b := 10) (by norm_num) d.power
  have hten : (10 : ℚ) ^ (-d.power).toNat ≠ 0 := by positivity
  push_cast at h
  simp only [Nat.pow_eq, Nat.cast_mul, Nat.cast_pow, Nat.cast_ofNat]
  rw [h, ← mul_assoc, mul_div_cancel_right₀ _ hten, value]

/-- A decimal lies between the powers of ten that its point tells. -/
theorem value_bounds (hd : d.digits ≠ 0) :
    (10 : ℚ) ^ ((Nat.toDigits 10 d.digits).length + d.power - 1) ≤ d.value ∧
      d.value < 10 ^ ((Nat.toDigits 10 d.digits).length + d.power) := by
  have hten : (0 : ℚ) < 10 ^ d.power := zpow_pos (by norm_num) _
  obtain ⟨k, hk⟩ : ∃ k, (Nat.toDigits 10 d.digits).length = k + 1 :=
    Nat.exists_eq_succ_of_ne_zero (Nat.ne_of_gt Nat.length_toDigits_pos)
  have hl : (10 : ℚ) ^ (k : ℤ) ≤ d.digits := by
    exact_mod_cast Double.pow_le_of_length (Nat.pos_of_ne_zero hd) hk
  have hu : (d.digits : ℚ) < 10 ^ ((k : ℤ) + 1) := by
    exact_mod_cast (Nat.length_toDigits_le_iff (by norm_num) (Nat.succ_pos k)).mp hk.le
  rw [hk, value, show ((k + 1 : ℕ) : ℤ) + d.power - 1 = k + d.power by push_cast; ring,
    Nat.cast_succ, zpow_add₀ (by norm_num), zpow_add₀ (by norm_num)]
  exact ⟨mul_le_mul_of_nonneg_right hl hten.le, mul_lt_mul_of_pos_right hu hten⟩

end Decimal

namespace Double

variable {x : Double} {power : ℤ} {d n : ℕ} {q : ℚ}

/-- A quarter of the last bit. -/
def quarter (x : Double) : ℚ := 2 ^ (x.exponent - 2)

theorem quarter_pos (x : Double) : 0 < x.quarter := zpow_pos (by norm_num) _

/-- The double without its sign. -/
def magnitudeValue (x : Double) : ℚ := x.quarters * x.quarter

/-- Whether a number lies nearer to a double, without its sign, than to the doubles next to it; of
two equally near doubles it belongs to the one with the even significand. -/
def Covers (x : Double) (q : ℚ) : Prop :=
  if x.significand % 2 = 0 then x.lower * x.quarter ≤ q ∧ q ≤ x.upper * x.quarter
  else x.lower * x.quarter < q ∧ q < x.upper * x.quarter

theorem covers_of_lt (hl : x.lower * x.quarter < q) (hu : q < x.upper * x.quarter) :
    x.Covers q := by
  unfold Covers
  split
  · exact ⟨hl.le, hu.le⟩
  · exact ⟨hl, hu⟩

theorem Covers.ends (h : x.Covers q) :
    x.lower * x.quarter ≤ q ∧ q ≤ x.upper * x.quarter := by
  unfold Covers at h
  split at h
  · exact h
  · exact ⟨h.1.le, h.2.le⟩

/-! ## The grid of a power of ten -/

theorem scaled_eq (x : Double) (power : ℤ) (n : ℕ) :
    ((x.scaled power n).num : ℚ) * 10 ^ power = n * x.quarter * (x.scaled power n).den := by
  have h2 := pow_toNat_eq (b := 2) (by norm_num) (x.exponent - 2)
  have h10 := pow_toNat_eq (b := 10) (by norm_num) power
  rw [scaled_num, scaled_den, quarter]
  push_cast at h2 h10 ⊢
  rw [h2, h10]
  ring

theorem scaled_le_iff : (x.scaled power n).num ≤ d * (x.scaled power n).den ↔
    n * x.quarter ≤ d * 10 ^ power := by
  have hden : (0 : ℚ) < (x.scaled power n).den := by exact_mod_cast scaled_den_pos
  have hten : (0 : ℚ) < 10 ^ power := zpow_pos (by norm_num) _
  rw [← Nat.cast_le (α := ℚ), ← mul_le_mul_iff_left₀ hten, scaled_eq, Nat.cast_mul,
    mul_right_comm (d : ℚ), mul_le_mul_iff_left₀ hden]

theorem le_scaled_iff : d * (x.scaled power n).den ≤ (x.scaled power n).num ↔
    d * 10 ^ power ≤ n * x.quarter := by
  have hden : (0 : ℚ) < (x.scaled power n).den := by exact_mod_cast scaled_den_pos
  have hten : (0 : ℚ) < 10 ^ power := zpow_pos (by norm_num) _
  rw [← Nat.cast_le (α := ℚ), ← mul_le_mul_iff_left₀ hten, scaled_eq, Nat.cast_mul,
    mul_right_comm (d : ℚ), mul_le_mul_iff_left₀ hden]

/-- The decimals that are admitted are those in the interval. -/
theorem admits_iff : x.admits power d = true ↔ x.Covers (d * 10 ^ power) := by
  unfold admits Covers
  simp only
  split
  · rw [Bool.and_eq_true, decide_eq_true_eq, decide_eq_true_eq, scaled_le_iff, le_scaled_iff]
  · rw [Bool.and_eq_true, decide_eq_true_eq, decide_eq_true_eq, lt_iff_not_ge, lt_iff_not_ge,
      scaled_le_iff, le_scaled_iff, not_le, not_le]

theorem admits_of_hit? (h : x.hit? power = some d) : x.admits power d = true := by
  unfold hit? at h
  simp only at h
  split at h
  · rename_i hd hs
    split at h
    · cases h; exact hd
    · split at h
      · cases h; exact hs
      · split at h <;> cases h
        · exact hd
        · exact hs
  · rename_i hd _
    cases h
    exact hd
  · rename_i hs
    cases h
    exact hs
  · cases h

/-! ## Seventeen digits suffice -/

theorem fraction_lt (x : Double) : x.fraction < 2 ^ 52 := Nat.mod_lt _ (by norm_num)

theorem significand_lt (x : Double) : x.significand < 2 ^ 53 := by
  have := x.fraction_lt
  unfold significand
  split <;> omega

/-- The lower end of the interval is half a last bit away, above a power of two only a quarter of
one; unless the neighbour below has the same last bit. -/
theorem lower_cases (hx : x.isZero = false) :
    (x.lower : ℚ) = 4 * x.significand - 2 ∧ (2 ^ 52 < x.significand ∨ x.exponent = -1074) ∨
      (x.lower : ℚ) = 4 * x.significand - 1 ∧ x.significand = 2 ^ 52 ∧ -1074 < x.exponent := by
  have hs := significand_pos hx
  have hle : 1 ≤ 4 * x.significand ∧ 2 ≤ 4 * x.significand := by omega
  unfold lower quarters
  split
  · rename_i h
    rw [Nat.cast_sub hle.1, significand, exponent, if_neg (by omega), if_neg (by omega), h.1]
    exact .inr ⟨by push_cast; ring, by norm_num, by omega⟩
  · rename_i h
    rw [Nat.cast_sub hle.2]
    refine .inl ⟨by push_cast; ring, ?_⟩
    unfold significand exponent
    split <;> omega

theorem upper_eq (x : Double) : (x.upper : ℚ) = 4 * x.significand + 2 := by
  rw [upper, quarters]
  push_cast
  ring

theorem magnitudeValue_eq (x : Double) : x.magnitudeValue = 4 * x.significand * x.quarter := by
  rw [magnitudeValue, quarters]
  push_cast
  ring

/-- Where a grid is fine enough for seventeen digits, its step is less than twice the way to each
end of the interval. -/
theorem step_lt (hx : x.isZero = false) (h : 10 ^ 16 * 10 ^ power ≤ x.magnitudeValue) :
    (10 : ℚ) ^ power < 2 * (x.magnitudeValue - x.lower * x.quarter) ∧
      (10 : ℚ) ^ power < 2 * (x.upper * x.quarter - x.magnitudeValue) := by
  have hq := x.quarter_pos
  have hs : (x.significand : ℚ) < 2 ^ 53 := by exact_mod_cast x.significand_lt
  have hstep : (10 : ℚ) ^ power < 4 * x.quarter := by
    have := mul_lt_mul_of_pos_right hs hq
    rw [magnitudeValue_eq] at h
    linarith
  rw [magnitudeValue_eq] at h ⊢
  refine ⟨?_, by rw [upper_eq]; linarith⟩
  rcases lower_cases hx with ⟨hl, -⟩ | ⟨hl, hmin, -⟩
  · rw [hl]
    linarith
  · -- The nearer end is that of a power of two, which has the least significand.
    rw [hl]
    rw [hmin] at h ⊢
    push_cast at h ⊢
    linarith

/-- On a grid for seventeen digits, the nearer neighbour of a double is admitted. -/
theorem hit?_ne_none (hx : x.isZero = false) (h : 10 ^ 16 * 10 ^ power ≤ x.magnitudeValue) :
    x.hit? power ≠ none := by
  obtain ⟨hl, hu⟩ := step_lt hx h
  obtain ⟨d, hd⟩ : ∃ d, d = (x.scaled power x.quarters).num / (x.scaled power x.quarters).den :=
    ⟨_, rfl⟩
  have hbelow : d * 10 ^ power ≤ x.magnitudeValue :=
    le_scaled_iff.mp (hd ▸ Nat.div_mul_le_self _ _)
  have habove : x.magnitudeValue ≤ (d + 1 : ℕ) * 10 ^ power :=
    scaled_le_iff.mp (hd ▸ ((Nat.div_lt_iff_lt_mul scaled_den_pos).mp (Nat.lt_succ_self _)).le)
  push_cast at habove
  have hor : x.admits power d = true ∨ x.admits power (d + 1) = true := by
    rw [admits_iff, admits_iff]
    push_cast
    rcases le_total (2 * (x.magnitudeValue - d * 10 ^ power)) (10 ^ power) with hn | hn
    · exact .inl (covers_of_lt (by linarith) (by linarith))
    · exact .inr (covers_of_lt (by linarith) (by linarith))
  unfold hit?
  simp only [← hd]
  rcases hor with ha | ha <;> rw [ha] <;> split <;> grind

/-- The first digit of a double stands where its magnitude says. -/
theorem pow_magnitude_le (hx : x.isZero = false) :
    (10 : ℚ) ^ (x.magnitude - 1) ≤ x.magnitudeValue := by
  obtain ⟨k, hk, hv⟩ := exists_magnitude_eq hx
  rw [le_scaled_iff, Nat.cast_pow, Nat.cast_ofNat, ← zpow_natCast,
    ← zpow_add₀ (by norm_num)] at hv
  rwa [hk, show (k : ℤ) - 339 - 1 = k + -340 by omega]

/-! ## The search -/

/-- A search that comes to a hit ends in the interval. -/
theorem covers_search {fuel k : ℕ} (hk : k < fuel) (h : x.hit? (power - k) ≠ none) :
    x.Covers (x.search fuel power).value := by
  induction fuel generalizing power k with
  | zero => exact absurd hk (Nat.not_lt_zero k)
  | succ fuel ih =>
    rw [search]
    split
    · rename_i d hd
      rw [Decimal.value_reduced]
      exact admits_iff.mp (admits_of_hit? hd)
    · rename_i hnone
      cases k with
      | zero => simp [hnone] at h
      | succ k =>
        refine ih (Nat.lt_of_succ_lt_succ hk) ?_
        rwa [show power - 1 - (k : ℤ) = power - (k + 1 : ℕ) by omega]

/-- The shortest decimal of a double rounds to it. -/
theorem covers_shortest (hx : x.isZero = false) : x.Covers x.shortest.value := by
  rw [shortest, if_neg (by simp [hx])]
  refine covers_search (k := 16) (by norm_num) (hit?_ne_none hx ?_)
  have h := pow_magnitude_le hx
  rwa [show x.magnitude - 1 = (16 : ℕ) + (x.magnitude - 1 - (16 : ℕ)) by omega,
    zpow_add₀ (by norm_num), zpow_natCast] at h

end Double

end GraphClient
