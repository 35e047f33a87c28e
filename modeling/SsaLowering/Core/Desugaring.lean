import SsaLowering.Core.Body
import SsaLowering.Core.Inconsistency

/-!
# Desugaring

Brings the body of a function item into core form. A binding of the source gets its local where it
first appears; loops over a range and compound assignments to fields bring locals of their own.
-/

namespace SsaLowering.Core

open SsaLowering.Source

/-- The locals declared so far, and which of them stand for bindings of the source. -/
structure Locals where
  decls : Arena LocalDecl := #[]
  bindings : List (Nat × Local) := []

abbrev DesugarM := StateT Locals (Except InternalError)

def inconsistent {α : Type} (span : Span) (cause : Inconsistency) : DesugarM α :=
  throw { span, cause }

/-- A local that stands for no binding of the source. -/
def freshLocal (decl : LocalDecl) : DesugarM Local :=
  modifyGet fun locals =>
    let (id, decls) := locals.decls.add decl
    (⟨id⟩, { locals with decls })

/-- The local of a binding. It is declared where the binding first appears; later it becomes
mutable or captured if a declaration says so. -/
def bindLocal (binding : Nat) (decl : LocalDecl) : DesugarM Local := do
  match (← get).bindings.lookup binding with
  | some var =>
    modify fun locals =>
      { locals with
        decls := locals.decls.modify var.id fun known =>
          { known with
            mutable := known.mutable || decl.mutable
            captured := known.captured || decl.captured } }
    return var
  | none =>
    let var ← freshLocal decl
    modify fun locals => { locals with bindings := (binding, var) :: locals.bindings }
    return var

def dataOf? (types : TypeTable) (ty : Nat) : Option DataType :=
  match types.get? ty with
  | some (.data id) => types.data? id
  | _ => none

def payloadsOf? (types : TypeTable) (ty : Nat) : Option (Nat × Nat) :=
  match types.get? ty with
  | some (.result ok err) => some (ok, err)
  | _ => none

def fieldIndex (types : TypeTable) (ty : Nat) (name : String) (span : Span) : DesugarM Nat :=
  match dataOf? types ty with
  | none => inconsistent span .accessOfNonData
  | some data =>
    match data.field? name with
    | some (index, _) => pure index
    | none => inconsistent span (.unknownField name)

def eagerOp (span : Span) (op : Source.BinaryOp) : DesugarM BinaryOp :=
  match BinaryOp.ofSource? op with
  | some op => pure op
  | none => inconsistent span .shortCircuitAssignment

def bindVar (ty : Nat) (var : Source.Binding) : DesugarM Local :=
  bindLocal var.binding { name := var.name, ty, mutable := var.mutable }

def desugarPattern (types : TypeTable) (scrutinee : Nat) (span : Span) :
    Source.Pattern → DesugarM Pattern
  | .wildcard => pure .wildcard
  | .bind var => return .bind (← bindVar scrutinee var)
  | .int value => pure (.int value)
  | .bool value => pure (.bool value)
  | .ok var =>
    match payloadsOf? types scrutinee with
    | some (ok, _) => return .ok (← var.mapM (bindVar ok))
    | none => inconsistent span .patternOnNonResult
  | .err var =>
    match payloadsOf? types scrutinee with
    | some (_, err) => return .err (← var.mapM (bindVar err))
    | none => inconsistent span .patternOnNonResult

/-- The loop over a range: the counter and the bound are set once, the counter is compared with
the bound before each turn and steps by one after it. -/
def countedLoop (node : Nat) (span : Span) (counter bound : Local) (first last : Expr)
    (inclusive : Bool) (body : Block) : Block :=
  let int (kind : ExprKind) : Expr := { node, span, ty := TypeTable.int, kind }
  let stmt (kind : StmtKind) : Stmt := { node, span, kind }
  let cond : Expr :=
    { node, span, ty := TypeTable.bool,
      kind := .binary (if inclusive then .le else .lt) (int (.localVar counter))
        (int (.localVar bound)) }
  let next := int (.binary .add (int (.localVar counter)) (int (.literal (.int 1))))
  let step : Block :=
    { node, span, stmts := [stmt (.assign (.localVar counter) next)], tail := none }
  { node, span, tail := none,
    stmts := [
      stmt (.letVar counter (some first)),
      stmt (.letVar bound (some last)),
      stmt (.loop (some cond) body (some step))] }

/-- Moves the base of a field that is both read and written into a local of its own. -/
def holdBase (base : Expr) : DesugarM (Stmt × Expr) := do
  let var ← freshLocal { name := "field.base", ty := base.ty, mutable := false }
  return ({ node := base.node, span := base.span, kind := .letVar var (some base) },
    { base with kind := .localVar var })

def skipped (node : Nat) (span : Span) (value : Bool) : Block :=
  .wrap { node, span, ty := TypeTable.bool, kind := .literal (.bool value) }

mutual

def desugarBlock (types : TypeTable) : LoadedBlock → DesugarM Block
  | ⟨node, span, stmts, tail⟩ => do
    let stmts ← desugarStmts types stmts
    let tail ← match tail with
      | none => pure none
      | some tail => some <$> desugarExpr types tail
    return { node, span, stmts, tail }

def desugarStmts (types : TypeTable) : List LoadedStmt → DesugarM (List Stmt)
  | [] => pure []
  | stmt :: rest => do
    let stmts ← desugarStmt types stmt
    return stmts ++ (← desugarStmts types rest)

/-- Brings a statement into core form; one may become several. -/
def desugarStmt (types : TypeTable) : LoadedStmt → DesugarM (List Stmt)
  | ⟨node, span, .letVar binding name mutable captured ty init⟩ => do
    let init ← match init with
      | none => pure none
      | some init => some <$> desugarExpr types init
    let var ← bindLocal binding { name, ty, mutable, captured }
    return [{ node, span, kind := .letVar var init }]
  | ⟨node, span, .assign target op value⟩ => do
    let (held, place) ← match target with
      | ⟨_, _, ty, .localVar binding name⟩ => do
        let var ← bindLocal binding { name, ty, mutable := false }
        pure ([], Place.localVar var)
      | ⟨_, _, _, .globalVar name⟩ => pure ([], Place.globalVar name)
      | ⟨_, targetSpan, _, .field base name⟩ => do
        let base ← desugarExpr types base
        let index ← fieldIndex types base.ty name targetSpan
        if op.isSome then
          let (hold, base) ← holdBase base
          pure ([hold], Place.field base index)
        else pure ([], Place.field base index)
      | ⟨_, targetSpan, _, _⟩ => inconsistent targetSpan .assignmentToNonPlace
    let value ← desugarExpr types value
    let value ← match op with
      | none => pure value
      | some op => do
        let op ← eagerOp span op
        let current : Expr :=
          { node := target.node, span := target.span, ty := target.ty, kind := place.read }
        pure { node, span, ty := target.ty, kind := .binary op current value }
    return held ++ [{ node, span, kind := .assign place value }]
  | ⟨node, span, .expr value⟩ => return [{ node, span, kind := .expr (← desugarExpr types value) }]
  | ⟨node, span, .ret none⟩ => return [{ node, span, kind := .ret none }]
  | ⟨node, span, .ret (some value)⟩ =>
    return [{ node, span, kind := .ret (some (← desugarExpr types value)) }]
  | ⟨node, span, .ifElse cond body otherwise⟩ => do
    let cond ← desugarExpr types cond
    let body ← desugarBlock types body
    let otherwise ← desugarElse types node span otherwise
    let branch : Expr := { node, span, ty := TypeTable.unit, kind := .ifElse cond body otherwise }
    return [{ node, span, kind := .expr branch }]
  | ⟨node, span, .whileLoop cond body⟩ => do
    let cond ← desugarExpr types cond
    let body ← desugarBlock types body
    return [{ node, span, kind := .loop (some cond) body none }]
  | ⟨node, span, .loop body⟩ =>
    return [{ node, span, kind := .loop none (← desugarBlock types body) none }]
  | ⟨node, span, .forRange binding name first last inclusive body⟩ => do
    let first ← desugarExpr types first
    let last ← desugarExpr types last
    let counter ← bindLocal binding { name, ty := first.ty, mutable := true }
    let bound ← freshLocal { name := name ++ ".end", ty := last.ty, mutable := false }
    let body ← desugarBlock types body
    let loop := countedLoop node span counter bound first last inclusive body
    return [{ node, span, kind := .expr { node, span, ty := TypeTable.unit, kind := .block loop } }]
  | ⟨node, span, .breakLoop⟩ => return [{ node, span, kind := .breakLoop }]
  | ⟨node, span, .continueLoop⟩ => return [{ node, span, kind := .continueLoop }]

/-- Brings what follows the branch of an `if` statement into core form; `node` and `span` are those
of the statement. An `else if` nests in the `else` block. -/
def desugarElse (types : TypeTable) (node : Nat) (span : Span) :
    Option (Else Nat Span Nat) → DesugarM Block
  | none => pure (.empty node span)
  | some (.block body) => desugarBlock types body
  | some (.chain ⟨node, span, .ifElse cond body otherwise⟩) => do
    let cond ← desugarExpr types cond
    let body ← desugarBlock types body
    let otherwise ← desugarElse types node span otherwise
    return .wrap { node, span, ty := TypeTable.unit, kind := .ifElse cond body otherwise }
  | some (.chain ⟨_, span, _⟩) => inconsistent span .chainWithoutIf

def desugarExpr (types : TypeTable) : LoadedExpr → DesugarM Expr
  | ⟨node, span, ty, .literal value⟩ => pure ⟨node, span, ty, .literal value⟩
  | ⟨node, span, ty, .localVar binding name⟩ => do
    let var ← bindLocal binding { name, ty, mutable := false }
    return ⟨node, span, ty, .localVar var⟩
  | ⟨node, span, ty, .globalVar name⟩ => pure ⟨node, span, ty, .globalVar name⟩
  | ⟨node, span, ty, .binary .and lhs rhs⟩ => do
    let lhs ← desugarExpr types lhs
    let rhs ← desugarExpr types rhs
    return ⟨node, span, ty, .ifElse lhs (.wrap rhs) (skipped node span false)⟩
  | ⟨node, span, ty, .binary .or lhs rhs⟩ => do
    let lhs ← desugarExpr types lhs
    let rhs ← desugarExpr types rhs
    return ⟨node, span, ty, .ifElse lhs (skipped node span true) (.wrap rhs)⟩
  | ⟨node, span, ty, .binary op lhs rhs⟩ => do
    let op ← eagerOp span op
    let lhs ← desugarExpr types lhs
    let rhs ← desugarExpr types rhs
    return ⟨node, span, ty, .binary op lhs rhs⟩
  | ⟨node, span, ty, .unary op operand⟩ =>
    return ⟨node, span, ty, .unary op (← desugarExpr types operand)⟩
  | ⟨node, span, ty, .cast operand⟩ =>
    return ⟨node, span, ty, .cast (← desugarExpr types operand)⟩
  | ⟨node, span, ty, .call callee args⟩ =>
    return ⟨node, span, ty, .call callee (← desugarExprs types args)⟩
  | ⟨node, span, ty, .field base name⟩ => do
    let base ← desugarExpr types base
    let index ← fieldIndex types base.ty name span
    return ⟨node, span, ty, .field base index⟩
  | ⟨node, span, ty, .data inits⟩ =>
    match dataOf? types ty with
    | none => inconsistent span .initializerOfNonData
    | some data =>
      if inits.length ≠ data.fields.length then inconsistent span .initializerIncomplete
      else do return ⟨node, span, ty, .data (← desugarInits types data span [] inits)⟩
  | ⟨node, span, ty, .ok value⟩ => return ⟨node, span, ty, .ok (← desugarExpr types value)⟩
  | ⟨node, span, ty, .err value⟩ => return ⟨node, span, ty, .err (← desugarExpr types value)⟩
  | ⟨node, span, ty, .ifElse cond body otherwise⟩ => do
    let cond ← desugarExpr types cond
    let body ← desugarBlock types body
    let otherwise ← match otherwise with
      | none => pure (.empty node span)
      | some ⟨_, _, _, .block other⟩ => desugarBlock types other
      | some other => Block.wrap <$> desugarExpr types other
    return ⟨node, span, ty, .ifElse cond body otherwise⟩
  | ⟨node, span, ty, .matchOn scrutinee arms⟩ => do
    let scrutinee ← desugarExpr types scrutinee
    let arms ← desugarArms types scrutinee.ty arms
    return ⟨node, span, ty, .matchOn scrutinee arms⟩
  | ⟨node, span, ty, .block body⟩ => return ⟨node, span, ty, .block (← desugarBlock types body)⟩
  | ⟨node, span, ty, .propagate value⟩ =>
    return ⟨node, span, ty, .propagate (← desugarExpr types value)⟩

def desugarExprs (types : TypeTable) : List LoadedExpr → DesugarM (List Expr)
  | [] => pure []
  | expr :: rest => do
    let expr ← desugarExpr types expr
    return expr :: (← desugarExprs types rest)

/-- Brings the values of a data initializer into core form; `seen` are the fields already
initialized. -/
def desugarInits (types : TypeTable) (data : DataType) (span : Span) (seen : List Nat) :
    List (Source.FieldInit Nat Span Nat) → DesugarM (List FieldInit)
  | [] => pure []
  | ⟨name, value⟩ :: rest =>
    match data.field? name with
    | none => inconsistent span (.unknownField name)
    | some (index, _) => do
      if index ∈ seen then inconsistent span .fieldInitializedTwice
      let value ← desugarExpr types value
      return ⟨index, value⟩ :: (← desugarInits types data span (index :: seen) rest)

def desugarArms (types : TypeTable) (scrutinee : Nat) :
    List (Source.Arm Nat Span Nat) → DesugarM (List Arm)
  | [] => pure []
  | ⟨pattern, body, span⟩ :: rest => do
    let pattern ← desugarPattern types scrutinee span pattern
    let body ← desugarExpr types body
    return ⟨pattern, body, span⟩ :: (← desugarArms types scrutinee rest)

end

def desugarFunction (types : TypeTable) (params : List (Param Nat Span)) (block : LoadedBlock) :
    DesugarM (List Local × Block) := do
  let params ← params.mapM fun param =>
    bindLocal param.binding { name := param.name, ty := param.ty, mutable := param.mutable }
  return (params, ← desugarBlock types block)

/-- Brings an item into core form. Only a function with a body has one. -/
def desugar (types : TypeTable) (item : LoadedItem) : Except InternalError (Option Body) :=
  match item.kind with
  | .function params ret (some block) => do
    let ((params, block), locals) ← (desugarFunction types params block).run {}
    return some
      { name := item.name, params, ret, locals := locals.decls, block, span := item.span
        node := item.node }
  | _ => pure none

end SsaLowering.Core
