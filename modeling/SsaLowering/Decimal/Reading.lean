/-!
# Reading decimal numbers

A decimal literal is read in two steps. Its digits are gathered into an integer for as long as
that fits 64 bits, the place of each being kept in an exponent; then the integer, as a double, is
scaled once by a power of ten. The result is the double nearest to the literal or close to it.
A literal too large for a double has no reading; one too small reads as zero.
-/

namespace SsaLowering.Decimal

/-- A number literal: the digits around its point and its exponent. A literal without a point has
no fraction digits. -/
structure Literal where
  negative : Bool
  whole : List Char
  fraction : List Char := []
  exponent : Option Int := none
  deriving DecidableEq, Repr

def digitValue (c : Char) : Nat :=
  c.toNat - '0'.toNat

/-- Appends a digit, unless the number would pass 64 bits. -/
def appendDigit? (significand : Nat) (c : Char) : Option Nat :=
  let next := significand * 10 + digitValue c
  if next < 0x10000000000000000 then some next else none

/-- Gathers the digits before the point. The first that does not fit, and all after it, only
count as places. -/
def gatherWhole (significand : Nat) : List Char → Nat × Nat
  | [] => (significand, 0)
  | c :: rest =>
    match appendDigit? significand c with
    | some next => gatherWhole next rest
    | none => (significand, rest.length + 1)

/-- Gathers the digits after the point, up to the first that does not fit, and counts them. -/
def gatherFraction (significand : Nat) : List Char → Nat × Nat
  | [] => (significand, 0)
  | c :: rest =>
    match appendDigit? significand c with
    | some next =>
      let (result, count) := gatherFraction next rest
      (result, count + 1)
    | none => (significand, 0)

def largestPower : Nat :=
  308

def power (exponent : Nat) : Float :=
  Float.ofScientific 1 false exponent

/-- Scales a double by a power of ten; small exponents are taken in steps. -/
def scale (value : Float) (exponent : Int) : Nat → Option Float
  | 0 => some value
  | fuel + 1 =>
    if exponent.natAbs ≤ largestPower then
      if 0 ≤ exponent then
        let result := value * power exponent.natAbs
        if result.isInf then none else some result
      else
        some (value / power exponent.natAbs)
    else if value == 0.0 then some value
    else if 0 ≤ exponent then none
    else scale (value / power largestPower) (exponent + largestPower) fuel

/-- The integer that a literal without fraction and exponent stands for. Minus zero is not one. -/
def Literal.toInt? (literal : Literal) : Option Int :=
  let magnitude := literal.whole.foldl (fun total c => total * 10 + digitValue c) 0
  if literal.fraction ≠ [] ∨ literal.exponent.isSome then none
  else if literal.negative then if magnitude = 0 then none else some (-magnitude)
  else some magnitude

/-- The bit pattern of the double that a literal reads as. Three steps are enough: a 64-bit
integer divided twice by the greatest power of ten is zero. -/
def Literal.toBits? (literal : Literal) : Option UInt64 := do
  let (whole, dropped) := gatherWhole 0 literal.whole
  let (significand, places) := gatherFraction whole literal.fraction
  let exponent := literal.exponent.getD 0 + dropped - places
  let value ← scale (UInt64.ofNat significand).toFloat exponent 4
  return (if literal.negative then -value else value).toBits

end SsaLowering.Decimal
