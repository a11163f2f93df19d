import GraphClient.Double

/-!
# The shortest decimal of a double

`Double.shortest` is the decimal with the fewest digits among those that lie nearer to a
double than to its neighbours. The reals that round to the double form an interval, whose
ends belong to it when the significand is even; in units of a quarter of the last bit it is
`[lower, upper]`. For one digit, two digits, and so on, the two multiples of the power of
ten around the value are tried (`hit?`); of two hits the nearer one is taken, of two equally
near ones the even one. Seventeen digits suffice for every double.
-/

namespace GraphClient

/-- The number `digits * 10 ^ power`. -/
structure Decimal where
  digits : Nat
  power : Int
  deriving DecidableEq, Repr

/-- Without a zero at the end of its digits. -/
def Decimal.reduced (d : Decimal) : Decimal :=
  if d.digits % 10 = 0 then ⟨d.digits / 10, d.power + 1⟩ else d

namespace Double

/-- A quotient of whole numbers, as `num / den`. -/
structure Ratio where
  num : Nat
  den : Nat

/-- The quotient `n * 2 ^ (x.exponent - 2) / 10 ^ power`. -/
def scaled (x : Double) (power : Int) (n : Nat) : Ratio :=
  let e := x.exponent - 2
  ⟨n * Nat.pow 2 e.toNat * Nat.pow 10 (-power).toNat,
    Nat.pow 2 (-e).toNat * Nat.pow 10 power.toNat⟩

/-- Four times the significand. -/
def quarters (x : Double) : Nat := 4 * x.significand

/-- The lower end: the neighbour below a power of two is half as far away. -/
def lower (x : Double) : Nat :=
  if x.fraction = 0 ∧ 1 < x.exponentField then x.quarters - 1 else x.quarters - 2

def upper (x : Double) : Nat := x.quarters + 2

/-- Whether `d * 10 ^ power` rounds to the double. -/
def admits (x : Double) (power : Int) (d : Nat) : Bool :=
  let lo := x.scaled power x.lower
  let hi := x.scaled power x.upper
  if x.significand % 2 = 0 then lo.num ≤ d * lo.den && d * hi.den ≤ hi.num
  else lo.num < d * lo.den && d * hi.den < hi.num

/-- The multiple of `10 ^ power` next to the value, if one rounds to it. -/
def hit? (x : Double) (power : Int) : Option Nat :=
  let v := x.scaled power x.quarters
  let d := v.num / v.den
  match x.admits power d, x.admits power (d + 1) with
  | true, true =>
    let below := v.num - d * v.den
    let above := (d + 1) * v.den - v.num
    if below < above then some d
    else if above < below then some (d + 1)
    else if d % 2 = 0 then some d else some (d + 1)
  | true, false => some d
  | false, true => some (d + 1)
  | false, false => none

/-- How many digits stand before the point; negative, how many zeros follow it first. -/
def magnitude (x : Double) : Int :=
  let v := x.scaled (-340) x.quarters
  (Nat.toDigits 10 (v.num / v.den)).length - 340

/-- Tries the grids of `power`, `power - 1`, and so on. -/
def search (x : Double) : Nat → Int → Decimal
  | 0, power => ⟨(x.scaled power x.quarters).num / (x.scaled power x.quarters).den, power⟩
  | fuel + 1, power =>
    match x.hit? power with
    | some d => Decimal.reduced ⟨d, power⟩
    | none => search x fuel (power - 1)

/-- The shortest decimal of a finite double, without its sign. -/
def shortest (x : Double) : Decimal :=
  if x.isZero then ⟨0, 0⟩ else x.search 17 (x.magnitude - 1)

end Double

end GraphClient
