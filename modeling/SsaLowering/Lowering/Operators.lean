import SsaLowering.Lowering.State

/-!
# Operators

The instruction that computes each operator on the types on which it is defined. Operators on
strings are calls of helper functions.
-/

namespace SsaLowering.Lowering

open SsaLowering.Ir SsaLowering.Source

def concatName : String :=
  "rt.str_concat"

def equalName : String :=
  "rt.str_eq"

/-- An instruction that computes an operator, or the negation of it. -/
structure Selection where
  inst : Inst
  negated : Bool := false
  deriving DecidableEq, Repr

def intOp? : Core.BinaryOp → Option Ir.BinaryOp
  | .add => some .add
  | .sub => some .sub
  | .mul => some .mul
  | .div => some .sdiv
  | .rem => some .srem
  | .bitAnd => some .and
  | .bitOr => some .or
  | .bitXor => some .xor
  | .shl => some .shl
  | .shr => some .ashr
  | _ => none

def intPredicate? : Core.BinaryOp → Option IntPredicate
  | .eq => some .eq
  | .ne => some .ne
  | .lt => some .slt
  | .le => some .sle
  | .gt => some .sgt
  | .ge => some .sge
  | _ => none

def floatOp? : Core.BinaryOp → Option Ir.BinaryOp
  | .add => some .fadd
  | .sub => some .fsub
  | .mul => some .fmul
  | .div => some .fdiv
  | .rem => some .frem
  | _ => none

def floatPredicate? : Core.BinaryOp → Option FloatPredicate
  | .eq => some .oeq
  | .ne => some .one
  | .lt => some .olt
  | .le => some .ole
  | .gt => some .ogt
  | .ge => some .oge
  | _ => none

def boolPredicate? : Core.BinaryOp → Option IntPredicate
  | .eq => some .eq
  | .ne => some .ne
  | _ => none

def boolOp? : Core.BinaryOp → Option Ir.BinaryOp
  | .bitAnd => some .and
  | .bitOr => some .or
  | .bitXor => some .xor
  | _ => none

def selectBinary (ty : StaticType) (op : Core.BinaryOp) (lhs rhs : Value) : Option Selection :=
  let arithmetic (ty : Ty) (op : Ir.BinaryOp) : Selection := { inst := .binary op ty lhs rhs }
  match ty with
  | .int =>
    ((intOp? op).map (arithmetic .i64)).or
      ((intPredicate? op).map fun predicate => { inst := .icmp predicate lhs rhs })
  | .float =>
    ((floatOp? op).map (arithmetic .f64)).or
      ((floatPredicate? op).map fun predicate => { inst := .fcmp predicate lhs rhs })
  | .bool =>
    ((boolOp? op).map (arithmetic .i1)).or
      ((boolPredicate? op).map fun predicate => { inst := .icmp predicate lhs rhs })
  | .str =>
    match op with
    | .add => some { inst := .call .ptr concatName [lhs, rhs] }
    | .eq => some { inst := .call .i1 equalName [lhs, rhs] }
    | .ne => some { inst := .call .i1 equalName [lhs, rhs], negated := true }
    | _ => none
  | _ => none

def selectUnary (ty : StaticType) (op : Source.UnaryOp) (operand : Value) : Option Inst :=
  match ty, op with
  | .int, .neg => some (.unary .neg .i64 operand)
  | .float, .neg => some (.unary .fneg .f64 operand)
  | .int, .not => some (.unary .not .i64 operand)
  | .bool, .not => some (.unary .not .i1 operand)
  | _, _ => none

def lowerBinary (ctx : Context) (span : Span) (op : Core.BinaryOp) (ty : Nat)
    (lhs rhs : Value) : LowerM Value := do
  match (ctx.env.kind? ty).bind fun kind => selectBinary kind op lhs rhs with
  | none => inconsistent span (.undefinedOperator op.name (ctx.env.nameOf ty))
  | some selection =>
    let value ← insert selection.inst
    if selection.negated then insert (.unary .not .i1 value) else return value

def lowerUnary (ctx : Context) (span : Span) (op : Source.UnaryOp) (ty : Nat) (operand : Value) :
    LowerM Value :=
  match (ctx.env.kind? ty).bind fun kind => selectUnary kind op operand with
  | none => inconsistent span (.undefinedOperator op.name (ctx.env.nameOf ty))
  | some inst => insert inst

end SsaLowering.Lowering
