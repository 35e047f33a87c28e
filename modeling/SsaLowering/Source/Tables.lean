import SsaLowering.Source.Program

/-!
# Tables of a program

The nodes of a program laid out in tables, one each for blocks, statements and expressions, in
the order of their numbers. A row refers to its parts by their positions in the tables.

Loading gives a program as a tree, and whatever runs reads that tree. The tables are a second form
of the same program, in which a part can be told from any other; the theory states in it that no
part is lost, shared or under itself, and no command builds them.
-/

namespace SsaLowering.Source

inductive ElseRow where
  | block (block : Nat)
  | chain (stmt : Nat)
  deriving DecidableEq, Repr

inductive StmtRow where
  | letVar (binding : Nat) (name : String) (mutable captured : Bool) (ty : Nat) (init : Option Nat)
  | assign (target : Nat) (op : Option BinaryOp) (value : Nat)
  | expr (value : Nat)
  | ret (value : Option Nat)
  | ifElse (cond body : Nat) (otherwise : Option ElseRow)
  | whileLoop (cond body : Nat)
  | loop (body : Nat)
  | forRange (binding : Nat) (name : String) (first last : Nat) (inclusive : Bool) (body : Nat)
  | breakLoop
  | continueLoop
  deriving DecidableEq, Repr

structure ArmRow where
  pattern : Pattern
  body : Nat
  span : Span
  deriving DecidableEq, Repr

inductive ExprRow where
  | literal (value : Literal)
  | localVar (binding : Nat) (name : String)
  | globalVar (name : String)
  | binary (op : BinaryOp) (lhs rhs : Nat)
  | unary (op : UnaryOp) (operand : Nat)
  | cast (operand : Nat)
  | call (callee : String) (args : List Nat)
  | field (base : Nat) (name : String)
  | data (inits : List (String × Nat))
  | ok (value : Nat)
  | err (value : Nat)
  | ifElse (cond body : Nat) (otherwise : Option Nat)
  | matchOn (scrutinee : Nat) (arms : List ArmRow)
  | block (body : Nat)
  | propagate (value : Nat)
  deriving DecidableEq, Repr

structure Row (κ : Type) where
  node : Nat
  span : Span
  kind : κ
  deriving DecidableEq, Repr

structure BlockRow where
  stmts : List Nat
  tail : Option Nat
  deriving DecidableEq, Repr

structure TypedRow where
  ty : Nat
  kind : ExprRow
  deriving DecidableEq, Repr

inductive ItemRow where
  | function (params : List (Param Nat Span)) (ret : Nat) (body : Option Nat)
  | global (ty : Nat) (mutable : Bool) (init : Option Nat)

structure Tables where
  blocks : Arena (Row BlockRow) := #[]
  stmts : Arena (Row StmtRow) := #[]
  exprs : Arena (Row TypedRow) := #[]

abbrev LayOut := StateM Tables

/-- A row for one of the tables. -/
inductive NewRow where
  | block (row : Row BlockRow)
  | stmt (row : Row StmtRow)
  | expr (row : Row TypedRow)

/-- Adds a row to its table; the result has its position there. -/
def Tables.add (tables : Tables) : NewRow → Nat × Tables
  | .block row => (tables.blocks.size, { tables with blocks := tables.blocks.push row })
  | .stmt row => (tables.stmts.size, { tables with stmts := tables.stmts.push row })
  | .expr row => (tables.exprs.size, { tables with exprs := tables.exprs.push row })

def addRow (new : NewRow) : LayOut Nat :=
  modifyGet fun tables => tables.add new

mutual

def layOutBlock : LoadedBlock → LayOut Nat
  | ⟨node, span, stmts, tail⟩ => do
    let stmts ← layOutStmts stmts
    let tail ← match tail with
      | none => pure none
      | some tail => some <$> layOutExpr tail
    addRow (.block { node, span, kind := { stmts, tail } })

def layOutStmts : List LoadedStmt → LayOut (List Nat)
  | [] => pure []
  | stmt :: rest => do
    let stmt ← layOutStmt stmt
    return stmt :: (← layOutStmts rest)

def layOutStmt : LoadedStmt → LayOut Nat
  | ⟨node, span, kind⟩ => do
    let kind ← layOutStmtKind kind
    addRow (.stmt { node, span, kind })

def layOutStmtKind : StmtKind Nat Span Nat → LayOut StmtRow
  | .letVar binding name mutable captured ty init => do
    let init ← match init with
      | none => pure none
      | some init => some <$> layOutExpr init
    return .letVar binding name mutable captured ty init
  | .assign target op value => do
    let target ← layOutExpr target
    return .assign target op (← layOutExpr value)
  | .expr value => return .expr (← layOutExpr value)
  | .ret none => return .ret none
  | .ret (some value) => return .ret (some (← layOutExpr value))
  | .ifElse cond body otherwise => do
    let cond ← layOutExpr cond
    let body ← layOutBlock body
    let otherwise ← match otherwise with
      | none => pure none
      | some (.block other) => (some ∘ ElseRow.block) <$> layOutBlock other
      | some (.chain stmt) => (some ∘ ElseRow.chain) <$> layOutStmt stmt
    return .ifElse cond body otherwise
  | .whileLoop cond body => do
    let cond ← layOutExpr cond
    return .whileLoop cond (← layOutBlock body)
  | .loop body => return .loop (← layOutBlock body)
  | .forRange binding name first last inclusive body => do
    let first ← layOutExpr first
    let last ← layOutExpr last
    return .forRange binding name first last inclusive (← layOutBlock body)
  | .breakLoop => pure .breakLoop
  | .continueLoop => pure .continueLoop

def layOutExpr : LoadedExpr → LayOut Nat
  | ⟨node, span, ty, kind⟩ => do
    let kind ← layOutExprKind kind
    addRow (.expr { node, span, kind := { ty, kind } })

def layOutExprKind : ExprKind Nat Span Nat → LayOut ExprRow
  | .literal value => pure (.literal value)
  | .localVar binding name => pure (.localVar binding name)
  | .globalVar name => pure (.globalVar name)
  | .binary op lhs rhs => do
    let lhs ← layOutExpr lhs
    return .binary op lhs (← layOutExpr rhs)
  | .unary op operand => return .unary op (← layOutExpr operand)
  | .cast operand => return .cast (← layOutExpr operand)
  | .call callee args => return .call callee (← layOutExprs args)
  | .field base name => return .field (← layOutExpr base) name
  | .data inits => return .data (← layOutInits inits)
  | .ok value => return .ok (← layOutExpr value)
  | .err value => return .err (← layOutExpr value)
  | .ifElse cond body otherwise => do
    let cond ← layOutExpr cond
    let body ← layOutBlock body
    let otherwise ← match otherwise with
      | none => pure none
      | some other => some <$> layOutExpr other
    return .ifElse cond body otherwise
  | .matchOn scrutinee arms => do
    let scrutinee ← layOutExpr scrutinee
    return .matchOn scrutinee (← layOutArms arms)
  | .block body => return .block (← layOutBlock body)
  | .propagate value => return .propagate (← layOutExpr value)

def layOutExprs : List LoadedExpr → LayOut (List Nat)
  | [] => pure []
  | expr :: rest => do
    let expr ← layOutExpr expr
    return expr :: (← layOutExprs rest)

def layOutInits : List (FieldInit Nat Span Nat) → LayOut (List (String × Nat))
  | [] => pure []
  | ⟨name, value⟩ :: rest => do
    let value ← layOutExpr value
    return (name, value) :: (← layOutInits rest)

def layOutArms : List (Arm Nat Span Nat) → LayOut (List ArmRow)
  | [] => pure []
  | ⟨pattern, body, span⟩ :: rest => do
    let body ← layOutExpr body
    return { pattern, body, span } :: (← layOutArms rest)

end

def layOutItem (item : LoadedItem) : LayOut (Row ItemRow) := do
  let kind ← match item.kind with
    | .function params ret body => ItemRow.function params ret <$> body.mapM layOutBlock
    | .global ty mutable init => ItemRow.global ty mutable <$> init.mapM layOutExpr
  return { node := item.node, span := item.span, kind }

/-- The items of a program, by reference, and its tables. -/
def Program.layOut (program : Program) : List (Row ItemRow) × Tables :=
  Id.run ((program.items.mapM layOutItem).run {})

end SsaLowering.Source
