import SsaLowering.Ir.Layout

/-!
# Instructions

The instructions of the intermediate code. Every instruction is a value; one that produces nothing
has type `void`. `Inst.operands` lists the values an instruction uses and `Inst.mapOperands`
replaces them, both in the same order (`operands_mapOperands`, `mapOperandsM_pure`).
-/

namespace SsaLowering.Ir

/-- A value, by its position among the values of its function. -/
structure Value where
  id : Nat
  deriving DecidableEq, Repr, Inhabited

/-- A basic block, by its position among the blocks of its function. -/
structure Block where
  id : Nat
  deriving DecidableEq, Repr, Inhabited

def Value.render (value : Value) : String :=
  "%" ++ toString value.id

def Block.render (block : Block) : String :=
  "bb" ++ toString block.id

inductive BinaryOp where
  | add | sub | mul | sdiv | srem
  | fadd | fsub | fmul | fdiv | frem
  | and | or | xor | shl | ashr
  deriving DecidableEq, Repr

namespace BinaryOp

def all : List BinaryOp :=
  [add, sub, mul, sdiv, srem, fadd, fsub, fmul, fdiv, frem, and, or, xor, shl, ashr]

def name : BinaryOp → String
  | add => "add" | sub => "sub" | mul => "mul" | sdiv => "sdiv" | srem => "srem"
  | fadd => "fadd" | fsub => "fsub" | fmul => "fmul" | fdiv => "fdiv" | frem => "frem"
  | and => "and" | or => "or" | xor => "xor" | shl => "shl" | ashr => "ashr"

end BinaryOp

inductive UnaryOp where
  | neg | fneg | not
  deriving DecidableEq, Repr

namespace UnaryOp

def all : List UnaryOp :=
  [neg, fneg, not]

def name : UnaryOp → String
  | neg => "neg" | fneg => "fneg" | not => "not"

end UnaryOp

inductive IntPredicate where
  | eq | ne | slt | sle | sgt | sge
  deriving DecidableEq, Repr

namespace IntPredicate

def all : List IntPredicate :=
  [eq, ne, slt, sle, sgt, sge]

def name : IntPredicate → String
  | eq => "eq" | ne => "ne" | slt => "slt" | sle => "sle" | sgt => "sgt" | sge => "sge"

end IntPredicate

/-- Comparisons of floating-point numbers; all are false on a NaN. -/
inductive FloatPredicate where
  | oeq | one | olt | ole | ogt | oge
  deriving DecidableEq, Repr

namespace FloatPredicate

def all : List FloatPredicate :=
  [oeq, one, olt, ole, ogt, oge]

def name : FloatPredicate → String
  | oeq => "oeq" | one => "one" | olt => "olt" | ole => "ole" | ogt => "ogt" | oge => "oge"

end FloatPredicate

inductive CastOp where
  /-- A boolean as the integer zero or one. -/
  | zext
  /-- An integer as a floating-point number. -/
  | sitofp
  /-- A floating-point number as an integer, toward zero. -/
  | fptosi
  deriving DecidableEq, Repr

namespace CastOp

def all : List CastOp :=
  [zext, sitofp, fptosi]

def name : CastOp → String
  | zext => "zext" | sitofp => "sitofp" | fptosi => "fptosi"

end CastOp

/-- An instruction. Its result, if it has one, is the value that holds it. -/
inductive Inst where
  | iconst (value : Int64)
  /-- A floating-point constant, by its bit pattern. -/
  | fconst (bits : UInt64)
  | bconst (value : Bool)
  /-- The address of a string literal. -/
  | sconst (text : String)
  /-- Some value of a type. -/
  | undef (ty : Ty)
  /-- A parameter; it stands at the head of the entry block. -/
  | param (ty : Ty) (position : Nat)
  | binary (op : BinaryOp) (ty : Ty) (lhs rhs : Value)
  | unary (op : UnaryOp) (ty : Ty) (operand : Value)
  | icmp (predicate : IntPredicate) (lhs rhs : Value)
  | fcmp (predicate : FloatPredicate) (lhs rhs : Value)
  | cast (op : CastOp) (target : Ty) (operand : Value)
  /-- A stack slot. The address of a pinned one may escape. -/
  | alloca (ty : Ty) (pinned : Bool)
  | load (ty : Ty) (address : Value)
  | store (address stored : Value)
  /-- The address of a field of the record behind a pointer. -/
  | fieldPtr (agg : Nat) (address : Value) (position : Nat)
  /-- A record on the heap with no field set. -/
  | new (agg : Nat)
  | globalAddr (name : String)
  /-- An aggregate built from one value per field that holds one. -/
  | makeAgg (agg : Nat) (fields : List Value)
  | extractField (ty : Ty) (aggregate : Value) (position : Nat)
  | call (ty : Ty) (callee : String) (args : List Value)
  /-- One value per predecessor of the block, in the order of the predecessors. -/
  | phi (ty : Ty) (args : List Value)
  | br (target : Block)
  | condBr (condition : Value) (thenBlock elseBlock : Block)
  | ret (value : Option Value)
  /-- Control never gets here. -/
  | unreachable
  deriving DecidableEq, Repr

namespace Inst

def ty : Inst → Ty
  | iconst _ => .i64
  | fconst _ => .f64
  | bconst _ | icmp .. | fcmp .. => .i1
  | sconst _ | alloca .. | fieldPtr .. | new _ | globalAddr _ => .ptr
  | makeAgg agg _ => .agg agg
  | undef ty | param ty _ | binary _ ty _ _ | unary _ ty _ | cast _ ty _ | load ty _
  | extractField ty _ _ | call ty _ _ | phi ty _ => ty
  | store .. | br _ | condBr .. | ret _ | unreachable => .void

def isTerminator : Inst → Bool
  | br _ | condBr .. | ret _ | unreachable => true
  | _ => false

def isPhi : Inst → Bool
  | phi .. => true
  | _ => false

def isParam : Inst → Bool
  | param .. => true
  | _ => false

def isRet : Inst → Bool
  | ret _ => true
  | _ => false

def successors : Inst → List Block
  | br target => [target]
  | condBr _ thenBlock elseBlock => [thenBlock, elseBlock]
  | _ => []

/-- The values that an instruction uses, in order. -/
def operands : Inst → List Value
  | binary _ _ lhs rhs | icmp _ lhs rhs | fcmp _ lhs rhs => [lhs, rhs]
  | store address stored => [address, stored]
  | unary _ _ operand | cast _ _ operand => [operand]
  | load _ address | fieldPtr _ address _ => [address]
  | extractField _ aggregate _ => [aggregate]
  | condBr condition _ _ => [condition]
  | ret value => value.toList
  | makeAgg _ values | call _ _ values | phi _ values => values
  | iconst _ | fconst _ | bconst _ | sconst _ | undef _ | param .. | alloca .. | new _
  | globalAddr _ | br _ | unreachable => []

def mapOperandsM {m : Type → Type} [Monad m] (f : Value → m Value) : Inst → m Inst
  | binary op ty lhs rhs => return binary op ty (← f lhs) (← f rhs)
  | icmp predicate lhs rhs => return icmp predicate (← f lhs) (← f rhs)
  | fcmp predicate lhs rhs => return fcmp predicate (← f lhs) (← f rhs)
  | store address stored => return store (← f address) (← f stored)
  | unary op ty operand => return unary op ty (← f operand)
  | cast op target operand => return cast op target (← f operand)
  | load ty address => return load ty (← f address)
  | fieldPtr agg address position => return fieldPtr agg (← f address) position
  | extractField ty aggregate position => return extractField ty (← f aggregate) position
  | condBr condition thenBlock elseBlock => return condBr (← f condition) thenBlock elseBlock
  | ret (some value) => return ret (some (← f value))
  | makeAgg agg fields => return makeAgg agg (← fields.mapM f)
  | call ty callee args => return call ty callee (← args.mapM f)
  | phi ty args => return phi ty (← args.mapM f)
  | inst => return inst

def mapOperands (f : Value → Value) : Inst → Inst
  | binary op ty lhs rhs => binary op ty (f lhs) (f rhs)
  | icmp predicate lhs rhs => icmp predicate (f lhs) (f rhs)
  | fcmp predicate lhs rhs => fcmp predicate (f lhs) (f rhs)
  | store address stored => store (f address) (f stored)
  | unary op ty operand => unary op ty (f operand)
  | cast op target operand => cast op target (f operand)
  | load ty address => load ty (f address)
  | fieldPtr agg address position => fieldPtr agg (f address) position
  | extractField ty aggregate position => extractField ty (f aggregate) position
  | condBr condition thenBlock elseBlock => condBr (f condition) thenBlock elseBlock
  | ret value => ret (value.map f)
  | makeAgg agg fields => makeAgg agg (fields.map f)
  | call ty callee args => call ty callee (args.map f)
  | phi ty args => phi ty (args.map f)
  | inst => inst

theorem mapOperandsM_pure {m : Type → Type} [Monad m] [LawfulMonad m] (f : Value → Value)
    (inst : Inst) :
    inst.mapOperandsM (m := m) (fun value => pure (f value)) = pure (inst.mapOperands f) := by
  cases inst <;> simp [mapOperandsM, mapOperands]
  case ret value => cases value <;> simp

@[simp] theorem operands_mapOperands (f : Value → Value) (inst : Inst) :
    (inst.mapOperands f).operands = inst.operands.map f := by
  cases inst <;> simp [mapOperands, operands]
  case ret value => cases value <;> simp

@[simp] theorem ty_mapOperands (f : Value → Value) (inst : Inst) :
    (inst.mapOperands f).ty = inst.ty := by
  cases inst <;> rfl

@[simp] theorem successors_mapOperands (f : Value → Value) (inst : Inst) :
    (inst.mapOperands f).successors = inst.successors := by
  cases inst <;> rfl

@[simp] theorem isTerminator_mapOperands (f : Value → Value) (inst : Inst) :
    (inst.mapOperands f).isTerminator = inst.isTerminator := by
  cases inst <;> rfl

theorem successors_eq_nil_of_not_isTerminator {inst : Inst} (h : inst.isTerminator = false) :
    inst.successors = [] := by
  cases inst <;> first | rfl | cases h

end Inst

end SsaLowering.Ir
