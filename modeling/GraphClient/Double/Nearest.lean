import GraphClient.Double.Shortest

/-!
# The double nearest to a decimal

`Double.nearest` rounds a decimal to a double: to the nearest one, of two equally near ones
to that with the even significand. The significand of a quotient is the whole number nearest
to it in units of the last bit (`unitExponent`). As the bits of the exponent stand above
those of the fraction, a significand that rounds up to the next power of two carries into
the exponent.
-/

namespace GraphClient.Double

/-- The whole number nearest to `num / den`, of two equally near ones the even one. -/
def roundEven (num den : Nat) : Nat :=
  let below := num / den
  let twice := 2 * (num % den)
  if twice < den ∨ (twice = den ∧ below % 2 = 0) then below else below + 1

/-- Rounding moves a quotient by at most a half. -/
theorem roundEven_near (num den : Nat) (h : 0 < den) :
    2 * num ≤ 2 * (den * roundEven num den) + den ∧
      2 * (den * roundEven num den) ≤ 2 * num + den := by
  have hdiv := Nat.div_add_mod num den
  have hlt := Nat.mod_lt num h
  unfold roundEven
  simp only
  split
  · omega
  · rw [Nat.mul_add]
    omega

/-- The power of two of the last bit of a double near `num / den`. -/
def unitExponent (num den : Nat) : Int :=
  let log : Int := num.log2 - den.log2
  let isBelow : Bool := num * Nat.pow 2 (-log).toNat < den * Nat.pow 2 log.toNat
  max ((if isBelow then log - 1 else log) - 52) (-1074)

/-- The bits of the positive double nearest to `num / den`. -/
def nearestBits (num den : Nat) : Nat :=
  let unit := unitExponent num den
  let significand := roundEven (num * Nat.pow 2 (-unit).toNat) (den * Nat.pow 2 unit.toNat)
  min ((unit + 1074).toNat * 0x10000000000000 + significand) infinity.bits.toNat

/-- The bits of the double nearest to a decimal; far beyond the range there is no need to round. -/
def decimalBits (d : Decimal) : Nat :=
  let point : Int := (Nat.toDigits 10 d.digits).length + d.power
  if d.digits = 0 ∨ point < -330 then 0
  else if 310 < point then infinity.bits.toNat
  else nearestBits (d.digits * Nat.pow 10 d.power.toNat) (Nat.pow 10 (-d.power).toNat)

/-- The double nearest to a decimal with a sign. -/
def nearest (isNegative : Bool) (d : Decimal) : Double :=
  ⟨UInt64.ofNat (decimalBits d + if isNegative then 0x8000000000000000 else 0)⟩

example : nearest false ⟨1, -1⟩ = ⟨0x3FB999999999999A⟩ ∧ nearest false ⟨5, -324⟩ = ⟨1⟩ ∧
    nearest true ⟨0, 0⟩ = ⟨0x8000000000000000⟩ ∧ nearest true ⟨1, 309⟩ = negInfinity := by
  decide +kernel

end GraphClient.Double
