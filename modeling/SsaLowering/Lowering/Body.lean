import SsaLowering.Lowering.Branches

/-!
# Lowering a body

Builds the control-flow graph of a core body in one walk. Locals that may change live in stack
slots. Code behind a jump is lowered too, into blocks that no edge leads to.
-/

namespace SsaLowering.Lowering

open SsaLowering.Ir (Value Function)
open SsaLowering.Core (Block Stmt Expr FieldInit Arm Body)

mutual

def lowerBlock (ctx : Context) : Block → LowerM (Option Value)
  | ⟨_, _, stmts, tail⟩ => do
    enterScope
    lowerStmts ctx stmts
    let value ← match tail with
      | none => pure none
      | some tail => lowerExpr ctx tail
    leaveScope
    return value

def lowerStmts (ctx : Context) : List Stmt → LowerM Unit
  | [] => pure ()
  | stmt :: rest => do
    lowerStmt ctx stmt
    lowerStmts ctx rest

def lowerStmt (ctx : Context) : Stmt → LowerM Unit
  | ⟨node, span, .letVar var init⟩ => do
    let value ← match init with
      | none => pure none
      | some init => lowerExpr ctx init
    locate span node
    bindLocal ctx var value
  | ⟨node, span, .assign (.localVar var) value⟩ => do
    let value ← lowerExpr ctx value
    locate span node
    assignLocal ctx span var value
  | ⟨node, span, .assign (.globalVar name) value⟩ => do
    let value ← lowerExpr ctx value
    locate span node
    assignGlobal ctx span name value
  | ⟨node, span, .assign (.field base index) value⟩ => do
    let record ← asOperand ctx base.span base.ty (← lowerExpr ctx base)
    let value ← lowerExpr ctx value
    locate span node
    assignField ctx span base.ty record index value
  | ⟨_, _, .expr value⟩ => discard (lowerExpr ctx value)
  | ⟨node, span, .ret value⟩ => do
    let value ← match value with
      | none => pure none
      | some value => lowerExpr ctx value
    locate span node
    emitReturn value
    enterDeadBlock
  | ⟨node, span, .breakLoop⟩ => do
    locate span node
    jump span false
  | ⟨node, span, .continueLoop⟩ => do
    locate span node
    jump span true
  | ⟨node, span, .loop cond body step⟩ => do
    locate span node
    let blocks ← openLoop cond.isSome step.isSome
    match cond with
    | none => pure ()
    | some cond => do
      switchTo blocks.header
      let test ← asOperand ctx cond.span cond.ty (← lowerExpr ctx cond)
      locate span node
      emit (.condBr test blocks.body blocks.exit)
    enterLoop blocks
    discard (lowerBlock ctx body)
    locate span node
    emit (.br blocks.next)
    leaveLoop
    match step with
    | none => pure ()
    | some step => do
      switchTo blocks.next
      discard (lowerBlock ctx step)
      locate span node
      emit (.br blocks.header)
    switchTo blocks.exit

/-- Lowers an expression; returns its value. There is none if its type has no values, and there
may be none where control cannot get to. -/
def lowerExpr (ctx : Context) : Expr → LowerM (Option Value)
  | ⟨node, span, _, .literal value⟩ => do
    locate span node
    lowerLiteral value
  | ⟨node, span, ty, .localVar var⟩ => do
    locate span node
    readLocal ctx span ty var
  | ⟨node, span, ty, .globalVar name⟩ => do
    locate span node
    readGlobal ctx span ty name
  | ⟨node, span, _, .binary op lhs rhs⟩ => do
    let left ← asOperand ctx lhs.span lhs.ty (← lowerExpr ctx lhs)
    let right ← asOperand ctx rhs.span rhs.ty (← lowerExpr ctx rhs)
    locate span node
    some <$> lowerBinary ctx span op lhs.ty left right
  | ⟨node, span, _, .unary op operand⟩ => do
    let value ← asOperand ctx operand.span operand.ty (← lowerExpr ctx operand)
    locate span node
    some <$> lowerUnary ctx span op operand.ty value
  | ⟨node, span, ty, .cast operand⟩ => do
    let value ← asOperand ctx operand.span operand.ty (← lowerExpr ctx operand)
    locate span node
    some <$> convert ctx span value operand.ty ty
  | ⟨node, span, ty, .call callee args⟩ => do
    let values ← lowerArgs ctx args
    locate span node
    lowerCall ctx ty callee values
  | ⟨node, span, ty, .field base index⟩ => do
    let record ← asOperand ctx base.span base.ty (← lowerExpr ctx base)
    locate span node
    let agg ← layoutOf ctx span base.ty
    readField ctx ty agg record index
  | ⟨node, span, ty, .data inits⟩ => do
    locate span node
    let agg ← layoutOf ctx span ty
    let record ← insert (.new agg)
    lowerInits ctx span node agg record inits
    return some record
  | ⟨node, span, ty, .ok value⟩ => do
    let payload ← lowerExpr ctx value
    locate span node
    some <$> makeResult ctx span ty false payload
  | ⟨node, span, ty, .err value⟩ => do
    let payload ← lowerExpr ctx value
    locate span node
    some <$> makeResult ctx span ty true payload
  | ⟨node, span, ty, .ifElse cond body otherwise⟩ => do
    let test ← asOperand ctx cond.span cond.ty (← lowerExpr ctx cond)
    locate span node
    let thenBlock ← createBlock "if.then"
    let elseBlock ← createBlock "if.else"
    emit (.condBr test thenBlock elseBlock)
    switchTo thenBlock
    let thenEnd ← finishArm (← lowerBlock ctx body)
    switchTo elseBlock
    let elseEnd ← finishArm (← lowerBlock ctx otherwise)
    mergeArms ctx span node ty "if.merge" (thenEnd.toList ++ elseEnd.toList)
  | ⟨node, span, ty, .matchOn scrutinee arms⟩ => do
    let subject ← lowerExpr ctx scrutinee
    let (ends, exhaustive) ← lowerArms ctx subject arms
    if !exhaustive then
      locate span node
      emit .unreachable
    mergeArms ctx span node ty "match.merge" ends
  | ⟨_, _, _, .block body⟩ => lowerBlock ctx body
  | ⟨node, span, _, .propagate value⟩ => do
    let result ← asOperand ctx value.span value.ty (← lowerExpr ctx value)
    locate span node
    propagate ctx span value.ty result

/-- Lowers the arguments of a call; those whose type has no values are dropped. -/
def lowerArgs (ctx : Context) : List Expr → LowerM (List Value)
  | [] => pure []
  | arg :: rest => do
    let value ← match ← lowerExpr ctx arg with
      | some value => pure (some value)
      | none => undefOf ctx arg.ty
    return value.toList ++ (← lowerArgs ctx rest)

/-- Lowers the values of a data initializer and stores them into the new record. -/
def lowerInits (ctx : Context) (span : Span) (node agg : Nat) (record : Value) :
    List FieldInit → LowerM Unit
  | [] => pure ()
  | ⟨index, value⟩ :: rest => do
    match ← lowerExpr ctx value with
    | none => pure ()
    | some value => do
      locate span node
      storeField agg record index value
    lowerInits ctx span node agg record rest

/-- Lowers the arms of a match up to the first that always matches; returns the ends of those that
go on behind it and whether there is such an arm. -/
def lowerArms (ctx : Context) (subject : Option Value) : List Arm → LowerM (List ArmEnd × Bool)
  | [] => pure ([], false)
  | ⟨pattern, body, span⟩ :: rest => do
    locate span body.node
    enterScope
    let test ← testPattern ctx span subject pattern
    let next ← branchOnTest test
    bindPattern ctx subject pattern
    let value ← lowerExpr ctx body
    leaveScope
    let armEnd ← finishArm value
    match next with
    | none => return (armEnd.toList, true)
    | some next => do
      switchTo next
      let (ends, exhaustive) ← lowerArms ctx subject rest
      return (armEnd.toList ++ ends, exhaustive)

end

/-- Declares the parameters that have values; they come before the slots of those that change. -/
def declareParams (ctx : Context) : LowerM Unit := do
  let values ← ctx.body.params.mapM fun var =>
    match ctx.env.ty (ctx.localType var) with
    | .void => pure none
    | ty => some <$> build fun builder => builder.param ty
  (ctx.body.params.zip values).forM fun (var, value) => bindLocal ctx var value

/-- Ends a body, given its value. -/
def finishBody (ctx : Context) (tail : Option Value) : LowerM Unit := do
  let body := ctx.body
  locate body.span body.node
  if ← isReachable then
    match (← get).builder.function.ret, tail with
    | .void, _ => emit (.ret none)
    | _, some value => emit (.ret (some value))
    | _, none =>
      report .missingReturn body.span
        ("`" ++ body.name ++ "` can reach its end without producing a `" ++
          ctx.env.nameOf body.ret ++ "`")
      emitReturn none
  else sealDeadBlock

def lowerWhole (ctx : Context) : LowerM Unit := do
  enterScope
  declareParams ctx
  let tail ← lowerBlock ctx ctx.body.block
  finishBody ctx tail
  leaveScope

/-- What lowering a body gives: the function, unless there was an error, and what was reported up to
its end or the error. -/
structure LoweredBody where
  function : Except LowerError Function
  reports : List Report

def lowerBody (env : Environment) (body : Body) : LoweredBody :=
  let start : LowerState :=
    { builder := Ir.Builder.start body.name (env.ty body.ret) body.span body.node }
  match (lowerWhole { env, body }).run start with
  | .ok () state => { function := .ok state.builder.function, reports := state.reports }
  | .error error state => { function := .error error, reports := state.reports }

end SsaLowering.Lowering
