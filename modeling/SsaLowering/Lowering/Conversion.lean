import SsaLowering.Lowering.State

/-!
# Conversions

How a value of one primitive type becomes one of another. A number is true if it is not zero;
a truth value is widened to an integer first.
-/

namespace SsaLowering.Lowering

open SsaLowering.Ir SsaLowering.Source

inductive Conversion where
  | identity
  | intToFloat
  | intToBool
  | floatToInt
  | floatToBool
  | boolToInt
  | boolToFloat
  deriving DecidableEq, Repr

def conversion? : StaticType → StaticType → Option Conversion
  | .int, .int => some .identity
  | .float, .float => some .identity
  | .bool, .bool => some .identity
  | .int, .float => some .intToFloat
  | .int, .bool => some .intToBool
  | .float, .int => some .floatToInt
  | .float, .bool => some .floatToBool
  | .bool, .int => some .boolToInt
  | .bool, .float => some .boolToFloat
  | _, _ => none

def Conversion.apply (value : Value) : Conversion → LowerM Value
  | identity => pure value
  | intToFloat => insert (.cast .sitofp .f64 value)
  | intToBool => do
    let zero ← insert (.iconst 0)
    insert (.icmp .ne value zero)
  | floatToInt => insert (.cast .fptosi .i64 value)
  | floatToBool => do
    let zero ← insert (.fconst 0)
    insert (.fcmp .one value zero)
  | boolToInt => insert (.cast .zext .i64 value)
  | boolToFloat => do
    let wide ← insert (.cast .zext .i64 value)
    insert (.cast .sitofp .f64 wide)

/-- Converts a value between static types. A value of any type converts to the same type. -/
def convert (ctx : Context) (span : Span) (value : Value) (source target : Nat) :
    LowerM Value := do
  if source = target then return value
  let known := do conversion? (← ctx.env.kind? source) (← ctx.env.kind? target)
  match known with
  | some conversion => conversion.apply value
  | none =>
    inconsistent span (.noConversion (ctx.env.nameOf source) (ctx.env.nameOf target))

end SsaLowering.Lowering
