import SsaLowering.Source.Program

/-!
# Core bodies

The canonical form of a function body. It has no `if` statement, no missing `else`, no operator
that skips an operand, one form of loop and no compound assignment. Locals are numbered from zero
within a body. Every node keeps the number and span of the source node that it comes from.
-/

namespace SsaLowering.Core

/-- The number of a local in its body. -/
structure Local where
  id : Nat
  deriving DecidableEq, Repr

/-- What is known of a local. A captured local must stay in memory. -/
structure LocalDecl where
  name : String
  ty : Nat
  mutable : Bool
  captured : Bool := false
  deriving DecidableEq, Repr

/-- The binary operators, all of which evaluate both operands. -/
inductive BinaryOp where
  | add | sub | mul | div | rem
  | bitAnd | bitOr | bitXor | shl | shr
  | eq | ne | lt | le | gt | ge
  deriving DecidableEq, Repr

namespace BinaryOp

def name : BinaryOp → String
  | add => "Add" | sub => "Sub" | mul => "Mul" | div => "Div" | rem => "Rem"
  | bitAnd => "BitAnd" | bitOr => "BitOr" | bitXor => "BitXor" | shl => "Shl" | shr => "Shr"
  | eq => "Eq" | ne => "Ne" | lt => "Lt" | le => "Le" | gt => "Gt" | ge => "Ge"

def ofSource? : Source.BinaryOp → Option BinaryOp
  | .add => some add | .sub => some sub | .mul => some mul | .div => some div | .rem => some rem
  | .bitAnd => some bitAnd | .bitOr => some bitOr | .bitXor => some bitXor
  | .shl => some shl | .shr => some shr
  | .eq => some eq | .ne => some ne | .lt => some lt | .le => some le | .gt => some gt
  | .ge => some ge
  | .and => none | .or => none

theorem ofSource?_eq_none_iff {op : Source.BinaryOp} :
    ofSource? op = none ↔ op = .and ∨ op = .or := by
  cases op <;> simp [ofSource?]

end BinaryOp

inductive Pattern where
  | wildcard
  | bind (var : Local)
  | int (value : Int64)
  | bool (value : Bool)
  | ok (var : Option Local)
  | err (var : Option Local)
  deriving DecidableEq, Repr

def Pattern.isIrrefutable : Pattern → Bool
  | wildcard => true
  | bind _ => true
  | _ => false

mutual

/-- A sequence of statements and, if the block has a value, the expression that gives it. -/
structure Block where
  node : Nat
  span : Span
  stmts : List Stmt
  tail : Option Expr

structure Stmt where
  node : Nat
  span : Span
  kind : StmtKind

/-- The kinds of statements. A `continue` in a loop goes to the step, if there is one, and else to
the condition. -/
inductive StmtKind where
  | letVar (var : Local) (init : Option Expr)
  | assign (place : Place) (value : Expr)
  | expr (value : Expr)
  | ret (value : Option Expr)
  | breakLoop
  | continueLoop
  | loop (cond : Option Expr) (body : Block) (step : Option Block)

/-- What can be assigned to. A field is named by its position. -/
inductive Place where
  | localVar (var : Local)
  | globalVar (name : String)
  | field (base : Expr) (index : Nat)

structure Expr where
  node : Nat
  span : Span
  ty : Nat
  kind : ExprKind

inductive ExprKind where
  | literal (value : Source.Literal)
  | localVar (var : Local)
  | globalVar (name : String)
  | binary (op : BinaryOp) (lhs rhs : Expr)
  | unary (op : Source.UnaryOp) (operand : Expr)
  | cast (operand : Expr)
  | call (callee : String) (args : List Expr)
  | field (base : Expr) (index : Nat)
  | data (inits : List FieldInit)
  | ok (value : Expr)
  | err (value : Expr)
  | ifElse (cond : Expr) (body otherwise : Block)
  | matchOn (scrutinee : Expr) (arms : List Arm)
  | block (body : Block)
  | propagate (value : Expr)

/-- The value of a field, named by its position, in a data initializer. -/
structure FieldInit where
  index : Nat
  value : Expr

structure Arm where
  pattern : Pattern
  body : Expr
  span : Span

end

def Block.empty (node : Nat) (span : Span) : Block :=
  { node, span, stmts := [], tail := none }

/-- A block that is only a value. -/
def Block.wrap (expr : Expr) : Block :=
  { node := expr.node, span := expr.span, stmts := [], tail := some expr }

def Place.read : Place → ExprKind
  | localVar var => .localVar var
  | globalVar name => .globalVar name
  | field base index => .field base index

/-- A function after desugaring. -/
structure Body where
  name : String
  params : List Local
  ret : Nat
  locals : Arena LocalDecl
  block : Block
  span : Span
  node : Nat

def Body.local? (body : Body) (var : Local) : Option LocalDecl :=
  body.locals[var.id]?

end SsaLowering.Core
