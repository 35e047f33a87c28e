/-!
# Source trees

The typed syntax tree of a module. One family of types serves two stages: a tree as it is written,
and a tree that has been loaded. They differ in what stands at a node, so the family has three
parameters: `τ` for static types, `σ` for spans and `ν` for what names a node.
-/

namespace SsaLowering.Source

inductive BinaryOp where
  | add | sub | mul | div | rem
  | bitAnd | bitOr | bitXor | shl | shr
  | eq | ne | lt | le | gt | ge
  | and | or
  deriving DecidableEq, Repr

namespace BinaryOp

def all : List BinaryOp :=
  [add, sub, mul, div, rem, bitAnd, bitOr, bitXor, shl, shr, eq, ne, lt, le, gt, ge, and, or]

def name : BinaryOp → String
  | add => "Add" | sub => "Sub" | mul => "Mul" | div => "Div" | rem => "Rem"
  | bitAnd => "BitAnd" | bitOr => "BitOr" | bitXor => "BitXor" | shl => "Shl" | shr => "Shr"
  | eq => "Eq" | ne => "Ne" | lt => "Lt" | le => "Le" | gt => "Gt" | ge => "Ge"
  | and => "And" | or => "Or"

def key : BinaryOp → String
  | add => "add" | sub => "sub" | mul => "mul" | div => "div" | rem => "rem"
  | bitAnd => "bit_and" | bitOr => "bit_or" | bitXor => "bit_xor" | shl => "shl" | shr => "shr"
  | eq => "eq" | ne => "ne" | lt => "lt" | le => "le" | gt => "gt" | ge => "ge"
  | and => "and" | or => "or"

end BinaryOp

inductive UnaryOp where
  | neg
  | not
  deriving DecidableEq, Repr

namespace UnaryOp

def all : List UnaryOp :=
  [neg, not]

def name : UnaryOp → String
  | neg => "Neg"
  | not => "Not"

def key : UnaryOp → String
  | neg => "neg"
  | not => "not"

end UnaryOp

inductive Literal where
  | int (value : Int64)
  | float (bits : UInt64)
  | bool (value : Bool)
  | str (text : String)
  | unit
  deriving DecidableEq, Repr

structure Binding where
  binding : Nat
  name : String
  mutable : Bool := false
  deriving DecidableEq, Repr

inductive Pattern where
  | wildcard
  | bind (var : Binding)
  | int (value : Int64)
  | bool (value : Bool)
  | ok (var : Option Binding)
  | err (var : Option Binding)
  deriving DecidableEq, Repr

mutual

structure Block (τ σ ν : Type) where
  node : ν
  span : σ
  stmts : List (Stmt τ σ ν)
  tail : Option (Expr τ σ ν)

structure Stmt (τ σ ν : Type) where
  node : ν
  span : σ
  kind : StmtKind τ σ ν

inductive StmtKind (τ σ ν : Type) where
  | letVar (binding : Nat) (name : String) (mutable captured : Bool) (ty : τ)
      (init : Option (Expr τ σ ν))
  | assign (target : Expr τ σ ν) (op : Option BinaryOp) (value : Expr τ σ ν)
  | expr (value : Expr τ σ ν)
  | ret (value : Option (Expr τ σ ν))
  | ifElse (cond : Expr τ σ ν) (body : Block τ σ ν) (otherwise : Option (Else τ σ ν))
  | whileLoop (cond : Expr τ σ ν) (body : Block τ σ ν)
  | loop (body : Block τ σ ν)
  | forRange (binding : Nat) (name : String) (first last : Expr τ σ ν) (inclusive : Bool)
      (body : Block τ σ ν)
  | breakLoop
  | continueLoop

inductive Else (τ σ ν : Type) where
  | block (body : Block τ σ ν)
  | chain (stmt : Stmt τ σ ν)

structure Expr (τ σ ν : Type) where
  node : ν
  span : σ
  ty : τ
  kind : ExprKind τ σ ν

inductive ExprKind (τ σ ν : Type) where
  | literal (value : Literal)
  | localVar (binding : Nat) (name : String)
  | globalVar (name : String)
  | binary (op : BinaryOp) (lhs rhs : Expr τ σ ν)
  | unary (op : UnaryOp) (operand : Expr τ σ ν)
  | cast (operand : Expr τ σ ν)
  | call (callee : String) (args : List (Expr τ σ ν))
  | field (base : Expr τ σ ν) (name : String)
  | data (inits : List (FieldInit τ σ ν))
  | ok (value : Expr τ σ ν)
  | err (value : Expr τ σ ν)
  | ifElse (cond : Expr τ σ ν) (body : Block τ σ ν) (otherwise : Option (Expr τ σ ν))
  | matchOn (scrutinee : Expr τ σ ν) (arms : List (Arm τ σ ν))
  | block (body : Block τ σ ν)
  | propagate (value : Expr τ σ ν)

structure FieldInit (τ σ ν : Type) where
  name : String
  value : Expr τ σ ν

structure Arm (τ σ ν : Type) where
  pattern : Pattern
  body : Expr τ σ ν
  span : σ

end

structure Param (τ σ : Type) where
  binding : Nat
  name : String
  ty : τ
  mutable : Bool
  span : σ

inductive ItemKind (τ σ ν : Type) where
  | function (params : List (Param τ σ)) (ret : τ) (body : Option (Block τ σ ν))
  | global (ty : τ) (mutable : Bool) (init : Option (Expr τ σ ν))

structure Item (τ σ ν : Type) where
  node : ν
  span : σ
  name : String
  kind : ItemKind τ σ ν

inductive TypeName where
  | unit | bool | int | float | str | never
  | data (name : String)
  | result (ok err : TypeName)
  deriving DecidableEq, Repr

/-- A span as it is written: it may be absent, and its bounds may be out of order. -/
abbrev Bounds := Option (Nat × Nat)

structure DataDecl where
  name : String
  fields : List (String × TypeName)
  deriving DecidableEq, Repr

/-- A module as it is written. -/
structure Tree where
  name : String
  datas : List DataDecl
  items : List (Item TypeName Bounds Unit)

end SsaLowering.Source
