import SsaLowering.Decimal.Shortest

/-!
# Floating-point numbers as text

Numbers from one ten-thousandth up to, and without, ten to the sixteenth are written positionally
with at least one digit after the point; all others with an exponent.
-/

namespace SsaLowering.Decimal

/-- Where positional notation is used, by the power of ten of the first digit. -/
structure Format where
  lowest : Int
  highest : Int

def constants : Format where
  lowest := -4
  highest := 15

/-- The digits of a number without the zeros at its end, and how many zeros were there. -/
def dropZeros (digits : List Char) : List Char × Nat :=
  let kept := (digits.reverse.dropWhile (· == '0')).reverse
  (kept, digits.length - kept.length)

/-- A non-zero number with a point between its digits, or zeros on either side of them. -/
def positional (digits : List Char) (exponent : Int) : String :=
  if 0 ≤ exponent then
    String.ofList digits ++ String.ofList (List.replicate exponent.toNat '0') ++ ".0"
  else
    let places := (-exponent).toNat
    if digits.length ≤ places then
      "0." ++ String.ofList (List.replicate (places - digits.length) '0') ++ String.ofList digits
    else
      String.ofList (digits.take (digits.length - places)) ++ "."
        ++ String.ofList (digits.drop (digits.length - places))

/-- A non-zero number with one digit before the point and an exponent. -/
def scientific (digits : List Char) (leading : Int) : String :=
  let fraction := digits.drop 1
  String.ofList (digits.take 1)
    ++ (if fraction.isEmpty then "" else "." ++ String.ofList fraction)
    ++ "e" ++ toString leading

def Scaled.render (format : Format) (number : Scaled) : String :=
  let (digits, zeros) := dropZeros (Nat.toDigits 10 number.digits)
  let exponent := number.exponent + zeros
  let leading := exponent + digits.length - 1
  if format.lowest ≤ leading ∧ leading ≤ format.highest then positional digits exponent
  else scientific digits leading

/-- A double as text, by its bit pattern. The sign of a NaN is not shown. -/
def render (bits : UInt64) : String :=
  match Double.ofBits bits with
  | .nan => "NaN"
  | .infinite negative => if negative then "-inf" else "inf"
  | .finite negative mantissa exponent =>
    (if negative then "-" else "")
      ++ (if mantissa = 0 then "0.0" else (shortest mantissa exponent).render constants)

end SsaLowering.Decimal
