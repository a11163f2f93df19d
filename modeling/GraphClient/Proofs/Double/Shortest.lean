import GraphClient.Double.Shortest
import Mathlib.Tactic.Ring

/-!
# Digits of the shortest decimal

The shortest decimal of a double other than zero has digits other than zero (`shortest_digits`).
No decimal that rounds to the double is zero, as the lower end of its interval is not; and should
none be found, the last quotient is at least one, since it is taken seventeen places below the
first digit of the double.
-/

namespace GraphClient.Double

variable {x : Double} {power : Int} {d : Nat}

theorem significand_pos (hx : x.isZero = false) : 0 < x.significand :=
  Nat.pos_of_ne_zero fun h => by simp [isZero, h] at hx

theorem lower_pos (hx : x.isZero = false) : 0 < x.lower := by
  have := significand_pos hx
  unfold lower quarters
  split <;> omega

theorem scaled_num (x : Double) (power : Int) (n : Nat) : (x.scaled power n).num =
    n * 2 ^ (x.exponent - 2).toNat * 10 ^ (-power).toNat := rfl

theorem scaled_den (x : Double) (power : Int) (n : Nat) : (x.scaled power n).den =
    2 ^ (-(x.exponent - 2)).toNat * 10 ^ power.toNat := rfl

theorem scaled_num_pos {n : Nat} (hn : 0 < n) : 0 < (x.scaled power n).num :=
  Nat.mul_pos (Nat.mul_pos hn (Nat.two_pow_pos _)) (Nat.pow_pos (by decide))

theorem scaled_den_pos {n : Nat} : 0 < (x.scaled power n).den :=
  Nat.mul_pos (Nat.two_pow_pos _) (Nat.pow_pos (by decide))

/-- No multiple of zero rounds to a double other than zero. -/
theorem ne_zero_of_admits (hx : x.isZero = false) (h : x.admits power d = true) : d ≠ 0 := by
  rintro rfl
  have hlo : 0 < (x.scaled power x.lower).num := scaled_num_pos (lower_pos hx)
  simp only [admits] at h
  split at h <;> simp only [Nat.zero_mul, Bool.and_eq_true, decide_eq_true_eq] at h <;> omega

theorem ne_zero_of_hit? (hx : x.isZero = false) (h : x.hit? power = some d) : d ≠ 0 := by
  unfold hit? at h
  simp only at h
  split at h
  · rename_i hd _
    have hd := ne_zero_of_admits hx hd
    split at h
    · cases h; exact hd
    · split at h
      · cases h; exact Nat.succ_ne_zero _
      · split at h <;> cases h
        · exact hd
        · exact Nat.succ_ne_zero _
  · rename_i hd _
    cases h
    exact ne_zero_of_admits hx hd
  · cases h
    exact Nat.succ_ne_zero _
  · cases h

theorem digits_reduced {d : Decimal} (h : d.digits ≠ 0) : d.reduced.digits ≠ 0 := by
  unfold Decimal.reduced
  split
  · show d.digits / 10 ≠ 0
    omega
  · exact h

/-- The search finds digits, or ends where the quotient is at least one. -/
theorem digits_search (hx : x.isZero = false) (fuel : Nat)
    (h : (x.scaled (power - fuel) x.quarters).den ≤ (x.scaled (power - fuel) x.quarters).num) :
    (x.search fuel power).digits ≠ 0 := by
  induction fuel generalizing power with
  | zero =>
    rw [Int.natCast_zero, Int.sub_zero] at h
    exact Nat.ne_of_gt (Nat.div_pos h scaled_den_pos)
  | succ fuel ih =>
    rw [search]
    split
    · rename_i hd
      exact digits_reduced (ne_zero_of_hit? hx hd)
    · refine ih ?_
      rwa [show power - 1 - (fuel : Int) = power - (fuel + 1 : Nat) by omega]

/-! ## The last quotient -/

theorem exponent_ge (x : Double) : -1074 ≤ x.exponent := by
  unfold exponent
  split <;> omega

/-- Even the least double is more than `10 ^ (-340)`. -/
theorem scaled_least (hx : x.isZero = false) :
    (x.scaled (-340) x.quarters).den ≤ (x.scaled (-340) x.quarters).num := by
  have hq : 1 ≤ x.quarters := by
    have := significand_pos hx
    unfold quarters
    omega
  have he := exponent_ge x
  have hpow : (2 : Nat) ^ (33 * 34) ≤ 10 ^ (10 * 34) := by
    rw [Nat.pow_mul, Nat.pow_mul]
    exact Nat.pow_le_pow_left (by decide) 34
  rw [scaled_den, scaled_num, show (-340 : Int).toNat = 0 from rfl, Nat.pow_zero, Nat.mul_one]
  calc 2 ^ (-(x.exponent - 2)).toNat
      ≤ 2 ^ (33 * 34) := Nat.pow_le_pow_right (by decide) (by omega)
    _ ≤ 10 ^ (10 * 34) := hpow
    _ ≤ 10 ^ (- -340 : Int).toNat := Nat.pow_le_pow_right (by decide) (by omega)
    _ ≤ x.quarters * 2 ^ (x.exponent - 2).toNat * 10 ^ (- -340 : Int).toNat :=
      Nat.le_mul_of_pos_left _ (Nat.mul_pos hq (Nat.two_pow_pos _))

theorem pow_le_of_length {q k : Nat} (hq : 0 < q) (h : (Nat.toDigits 10 q).length = k + 1) :
    10 ^ k ≤ q := by
  rcases Nat.eq_zero_or_pos k with rfl | hk
  · exact hq
  · refine Nat.le_of_not_lt fun hlt => ?_
    have := (Nat.length_toDigits_le_iff (by decide) hk).mpr hlt
    omega

/-- What is known of a quotient in units of one power of ten holds of it in those of a lower one. -/
theorem quotient_shift {a b k m n u w : Nat} (h : 10 ^ k * (b * 10 ^ m) ≤ a * 10 ^ n)
    (he : u + n ≤ k + m + w) : b * 10 ^ u ≤ a * 10 ^ w := by
  refine Nat.le_of_mul_le_mul_right (c := 10 ^ n) ?_ (Nat.pow_pos (by decide))
  calc b * 10 ^ u * 10 ^ n = b * 10 ^ (u + n) := by rw [Nat.pow_add, Nat.mul_assoc]
    _ ≤ b * 10 ^ (k + m + w) := Nat.mul_le_mul_left _ (Nat.pow_le_pow_right (by decide) he)
    _ = 10 ^ k * (b * 10 ^ m) * 10 ^ w := by ring
    _ ≤ a * 10 ^ n * 10 ^ w := Nat.mul_le_mul_right _ h
    _ = a * 10 ^ w * 10 ^ n := by ring

/-- The magnitude of a double is that of its first digit. -/
theorem exists_magnitude_eq (hx : x.isZero = false) : ∃ k : Nat, x.magnitude = (k : Int) - 339 ∧
    10 ^ k * (x.scaled (-340) x.quarters).den ≤ (x.scaled (-340) x.quarters).num := by
  obtain ⟨k, hk⟩ : ∃ k, (Nat.toDigits 10 ((x.scaled (-340) x.quarters).num /
      (x.scaled (-340) x.quarters).den)).length = k + 1 :=
    Nat.exists_eq_succ_of_ne_zero (Nat.ne_of_gt Nat.length_toDigits_pos)
  refine ⟨k, ?_, (Nat.le_div_iff_mul_le scaled_den_pos).mp
    (pow_le_of_length (Nat.div_pos (scaled_least hx) scaled_den_pos) hk)⟩
  rw [magnitude, hk]
  omega

/-- Seventeen places below its first digit the quotient of a double is at least one. -/
theorem scaled_magnitude (hx : x.isZero = false) :
    (x.scaled (x.magnitude - 18) x.quarters).den ≤ (x.scaled (x.magnitude - 18) x.quarters).num := by
  obtain ⟨k, hk, hv⟩ := exists_magnitude_eq hx
  rw [scaled_den, scaled_num] at hv
  rw [hk, scaled_den, scaled_num]
  exact quotient_shift hv (by omega)

theorem digits_shortest (hx : x.isZero = false) : x.shortest.digits ≠ 0 := by
  rw [shortest, if_neg (by simp [hx])]
  refine digits_search hx 17 ?_
  rw [show x.magnitude - 1 - (17 : Nat) = x.magnitude - 18 by omega]
  exact scaled_magnitude hx

end GraphClient.Double
