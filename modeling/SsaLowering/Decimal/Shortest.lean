/-!
# Shortest decimal digits

A finite double stands for all reals that round to it. `shortest` gives, of the decimals with the
fewest digits among those reals, the one nearest to the double; of two equally near ones, the
greater. All arithmetic is exact.
-/

namespace SsaLowering.Decimal

inductive Double where
  | nan
  | infinite (negative : Bool)
  /-- The number `mantissa * 2 ^ exponent`, negated if `negative`. -/
  | finite (negative : Bool) (mantissa : Nat) (exponent : Int)
  deriving DecidableEq, Repr

/-- Splits a bit pattern into sign, exponent and mantissa. -/
def Double.ofBits (bits : UInt64) : Double :=
  let n := bits.toNat
  let negative := decide (0x8000000000000000 ≤ n)
  let biased : Nat := n / 0x10000000000000 % 2048
  let fraction : Nat := n % 0x10000000000000
  if biased = 2047 then
    if fraction = 0 then .infinite negative else .nan
  else if biased = 0 then
    .finite negative fraction (-1074)
  else
    .finite negative (fraction + 0x10000000000000) ((biased : Int) - 1075)

structure Scaled where
  digits : Nat
  exponent : Int
  deriving DecidableEq, Repr

def powerRatio (base : Nat) (exponent : Int) : Nat × Nat :=
  (base.pow exponent.toNat, base.pow (-exponent).toNat)

/-- The number of decimal digits before the point of `mantissa * 2 ^ exponent`; below one tenth
it is negative, and counts the zeros after the point. -/
def magnitude (mantissa : Nat) (exponent : Int) : Int :=
  let (num, den) := powerRatio 2 exponent
  ((Nat.toDigits 10 (mantissa * num * Nat.pow 10 400 / den)).length : Int) - 400

/-- The reals that round to a double, in quarters of its last place. -/
structure Interval where
  low : Nat
  value : Nat
  high : Nat
  /-- Whether the two ends themselves round to the double. -/
  closed : Bool
  deriving DecidableEq, Repr

/-- The interval of `mantissa * 2 ^ exponent`. Below a power of two the doubles lie twice as
dense, so the lower end is nearer there. -/
def Interval.around (mantissa : Nat) (exponent : Int) : Interval where
  low := if mantissa = 0x10000000000000 ∧ -1074 < exponent then 4 * mantissa - 1 else 4 * mantissa - 2
  value := 4 * mantissa
  high := 4 * mantissa + 2
  closed := mantissa % 2 == 0

/-- The point of the grid of step `10 ^ step` that lies in the interval, the nearer one if the
two neighbours of the value both do. -/
def gridPoint? (interval : Interval) (exponent : Int) (step : Int) : Option Nat :=
  let (num2, den2) := powerRatio 2 (exponent - 2)
  let (num10, den10) := powerRatio 10 step
  let a := num2 * den10
  let b := num10 * den2
  let below := interval.value * a / b
  let above := below + 1
  let belowFits :=
    if interval.closed then decide (interval.low * a ≤ below * b)
    else decide (interval.low * a < below * b)
  let aboveFits :=
    if interval.closed then decide (above * b ≤ interval.high * a)
    else decide (above * b < interval.high * a)
  if belowFits && aboveFits then
    if interval.value * a - below * b < above * b - interval.value * a then some below
    else some above
  else if belowFits then some below
  else if aboveFits then some above
  else none

/-- The first grid with a point in the interval, from `17 - fuel` digits on. -/
def search (interval : Interval) (exponent size : Int) : Nat → Scaled
  | 0 => ⟨interval.value, 0⟩
  | fuel + 1 =>
    let step := size - (17 - fuel : Int)
    match gridPoint? interval exponent step with
    | some digits => ⟨digits, step⟩
    | none => search interval exponent size fuel

/-- The shortest decimal that rounds to `mantissa * 2 ^ exponent`. -/
def shortest (mantissa : Nat) (exponent : Int) : Scaled :=
  search (.around mantissa exponent) exponent (magnitude mantissa exponent) 17

end SsaLowering.Decimal
