import GraphClient.Double.Shortest

/-!
# The text of a double

`Double.text` writes the shortest decimal of a double. Its digits stand around a point as
long as the number is below `10 ^ 21` and has at most six zeros behind the point; beyond
that an exponent with its sign follows one digit before the point. A zero has no sign.
-/

namespace GraphClient

namespace Decimal

/-- The digits and the exponent of a number that is very large or very small. -/
def scientific (digits : List Char) (exponent : Int) : List Char :=
  digits.take 1 ++ (if digits.length ≤ 1 then [] else '.' :: digits.drop 1) ++
    ['e', if exponent < 0 then '-' else '+'] ++ Nat.toDigits 10 exponent.natAbs

/-- The text of a decimal. -/
def layout (d : Decimal) : List Char :=
  let digits := Nat.toDigits 10 d.digits
  let point : Int := digits.length + d.power
  if digits.length ≤ point ∧ point ≤ 21 then digits ++ List.replicate d.power.toNat '0'
  else if 0 < point ∧ point ≤ 21 then
    digits.take point.toNat ++ '.' :: digits.drop point.toNat
  else if -6 < point ∧ point ≤ 0 then
    '0' :: '.' :: List.replicate (-point).toNat '0' ++ digits
  else scientific digits (point - 1)

end Decimal

namespace Double

/-- The text of a double. -/
def text (x : Double) : String :=
  if x.isNaN then "NaN"
  else
    let magnitude := if x.isFinite then String.ofList x.shortest.layout else "Infinity"
    if x.isNegative ∧ ¬ x.isZero then "-" ++ magnitude else magnitude

end Double

end GraphClient
