import SsaLowering.Lowering.Conversion
import SsaLowering.Lowering.Operators

/-!
# Branches, loops and results

The steps of lowering that do not depend on how the parts of a construct were lowered: reading and
writing variables, opening and closing loops, joining the arms of a branch, and taking results
apart.
-/

namespace SsaLowering.Lowering

open SsaLowering.Core (Local Pattern)
open SsaLowering.Ir
open SsaLowering.Source (Literal TypeTable)

/-- The value of an expression that is used as an operand, given its type and what it was lowered
to. Where control cannot get to, any value will do. -/
def asOperand (ctx : Context) (span : Span) (ty : Nat) (lowered : Option Value) :
    LowerM Value := do
  match lowered with
  | some value => return value
  | none =>
    if ← isReachable then inconsistent span (.valuelessOperand (ctx.env.nameOf ty))
    else undef (ctx.env.ty ty)

def layoutOf (ctx : Context) (span : Span) (ty : Nat) : LowerM Nat :=
  match ctx.env.agg? ty with
  | some agg => pure agg
  | none => inconsistent span (.noLayout (ctx.env.nameOf ty))

/-! ### Variables -/

def lowerLiteral : Literal → LowerM (Option Value)
  | .int value => some <$> insert (.iconst value)
  | .float bits => some <$> insert (.fconst bits)
  | .bool value => some <$> insert (.bconst value)
  | .str text => some <$> insert (.sconst text)
  | .unit => pure none

def unboundMessage (ctx : Context) (var : Local) : String :=
  "`" ++ ctx.localName var ++ "` is not bound at this point"

def noGlobalMessage (name : String) : String :=
  "no global named `" ++ name ++ "`"

def readLocal (ctx : Context) (span : Span) (ty : Nat) (var : Local) : LowerM (Option Value) := do
  match ← lookup var with
  | some (.value value) => return some value
  | some (.slot address ty) => some <$> insert (.load ty address)
  | some .unit => return none
  | none =>
    report .unboundIdentifier span (unboundMessage ctx var)
    undefOf ctx ty

/-- Reads a global; `ty` is the type that the expression has. -/
def readGlobal (ctx : Context) (span : Span) (ty : Nat) (name : String) :
    LowerM (Option Value) := do
  match ctx.env.global? name with
  | some held =>
    match ctx.env.ty held with
    | .void => return none
    | ty =>
      let address ← insert (.globalAddr name)
      some <$> insert (.load ty address)
  | none =>
    report .unboundIdentifier span (noGlobalMessage name)
    undefOf ctx ty

def assignLocal (ctx : Context) (span : Span) (var : Local) (value : Option Value) :
    LowerM Unit := do
  match ← lookup var with
  | some (.slot address _) =>
    match value with
    | some value => emit (.store address value)
    | none => return
  | some .unit => return
  | some (.value _) => inconsistent span (.immutableAssignment (ctx.localName var))
  | none => report .unboundIdentifier span (unboundMessage ctx var)

def assignGlobal (ctx : Context) (span : Span) (name : String) (value : Option Value) :
    LowerM Unit := do
  match ctx.env.global? name, value with
  | none, _ => report .unboundIdentifier span (noGlobalMessage name)
  | some _, none => return
  | some _, some value =>
    let address ← insert (.globalAddr name)
    emit (.store address value)

def storeField (agg : Nat) (record : Value) (index : Nat) (value : Value) : LowerM Unit := do
  let address ← insert (.fieldPtr agg record index)
  emit (.store address value)

def assignField (ctx : Context) (span : Span) (ty : Nat) (record : Value) (index : Nat)
    (value : Option Value) : LowerM Unit := do
  match ctx.env.agg? ty, value with
  | none, _ => inconsistent span (.storeIntoNonData (ctx.env.nameOf ty))
  | some _, none => return
  | some agg, some value => storeField agg record index value

/-- Reads a field of a record; `ty` is the type of the field. -/
def readField (ctx : Context) (ty agg : Nat) (record : Value) (index : Nat) :
    LowerM (Option Value) := do
  match ctx.env.ty ty with
  | .void => return none
  | ty =>
    let address ← insert (.fieldPtr agg record index)
    some <$> insert (.load ty address)

/-! ### Jumps and loops -/

def emitReturn (value : Option Value) : LowerM Unit := do
  match (← get).builder.function.ret, value with
  | .void, _ => emit (.ret none)
  | _, some value => emit (.ret (some value))
  | ty, none =>
    let value ← undef ty
    emit (.ret (some value))

/-- Leaves the innermost loop, or goes on with it. -/
def jump (span : Span) (next : Bool) : LowerM Unit := do
  match (← get).loops with
  | targets :: _ => emit (.br (if next then targets.next else targets.exit))
  | [] =>
    if next then
      report .continueOutsideLoop span "`continue` can only be used inside a loop body"
    else
      report .breakOutsideLoop span "`break` can only be used inside a loop body"
    emit .unreachable
  enterDeadBlock

/-- The blocks of a loop. Without a condition the body is the header; without a step the body goes
straight back to the header. -/
structure LoopBlocks where
  header : Block
  body : Block
  next : Block
  exit : Block

def openLoop (hasCond hasStep : Bool) : LowerM LoopBlocks := do
  let cond ← if hasCond then some <$> createBlock "loop.cond" else pure none
  let body ← createBlock "loop.body"
  let step ← if hasStep then some <$> createBlock "loop.step" else pure none
  let exit ← createBlock "loop.exit"
  let header := cond.getD body
  emit (.br header)
  return { header, body, next := step.getD header, exit }

def enterLoop (blocks : LoopBlocks) : LowerM Unit := do
  modify fun state =>
    { state with loops := { exit := blocks.exit, next := blocks.next } :: state.loops }
  switchTo blocks.body

def leaveLoop : LowerM Unit :=
  modify fun state => { state with loops := state.loops.tail }

/-! ### Arms -/

/-- The end of an arm that goes on behind the branch. -/
structure ArmEnd where
  block : Block
  value : Option Value

/-- Ends an arm; control may not get there. -/
def finishArm (value : Option Value) : LowerM (Option ArmEnd) := do
  if ← isReachable then return some { block := ← currentBlock, value }
  sealDeadBlock
  return none

/-- Goes from the end of an arm to the block where the arms meet; returns the value that flows
there, if there is one. -/
def joinArm (span : Span) (node : Nat) (ty : Ty) (target : Block) (arm : ArmEnd) :
    LowerM (Option Value) := do
  switchTo arm.block
  locate span node
  let value ← match ty, arm.value with
    | .void, _ => pure none
    | _, some value => pure (some value)
    | ty, none => some <$> undef ty
  emit (.br target)
  return value

/-- Joins the arms of a branch of some type. If no arm gets there, the branch does not either; a
single arm goes on in place. -/
def mergeArms (ctx : Context) (span : Span) (node ty : Nat) (name : String) :
    List ArmEnd → LowerM (Option Value)
  | [] => do
    enterDeadBlock
    return none
  | [arm] => do
    switchTo arm.block
    return match ctx.env.ty ty with
      | .void => none
      | _ => arm.value
  | arms => do
    let ty := ctx.env.ty ty
    let target ← createBlock name
    let values ← arms.mapM (joinArm span node ty target)
    switchTo target
    match ty with
    | .void => return none
    | ty => some <$> tryBuild fun builder => builder.phi target ty (values.filterMap id)

def subjectValue (span : Span) : Option Value → LowerM Value
  | some value => pure value
  | none => inconsistent span .refutableOnValueless

/-- Tests whether a pattern matches; one that always does needs no test, and binds its variable. -/
def testPattern (ctx : Context) (span : Span) (subject : Option Value) :
    Pattern → LowerM (Option Value)
  | .wildcard => pure none
  | .bind var => do
    bindLocal ctx var subject
    return none
  | .int value => do
    let subject ← subjectValue span subject
    let expected ← insert (.iconst value)
    some <$> insert (.icmp .eq subject expected)
  | .bool value => do
    let subject ← subjectValue span subject
    let expected ← insert (.bconst value)
    some <$> insert (.icmp .eq subject expected)
  | .ok _ => do
    let subject ← subjectValue span subject
    let isErr ← insert (.extractField .i1 subject Layout.tagField)
    some <$> insert (.unary .not .i1 isErr)
  | .err _ => do
    let subject ← subjectValue span subject
    some <$> insert (.extractField .i1 subject Layout.tagField)

/-- Branches on the test of an arm and moves the cursor into the arm; returns where the next arm
is tested. -/
def branchOnTest : Option Value → LowerM (Option Block)
  | none => pure none
  | some test => do
    let arm ← createBlock "match.arm"
    let next ← createBlock "match.next"
    emit (.condBr test arm next)
    switchTo arm
    return some next

def bindPayload (ctx : Context) (subject : Option Value) (index : Nat) (var : Local) :
    LowerM Unit := do
  let payload ← match ctx.env.ty (ctx.localType var), subject with
    | .void, _ => pure none
    | _, none => pure none
    | ty, some subject => some <$> insert (.extractField ty subject index)
  bindLocal ctx var payload

def bindPattern (ctx : Context) (subject : Option Value) : Pattern → LowerM Unit
  | .ok (some var) => bindPayload ctx subject Layout.okField var
  | .err (some var) => bindPayload ctx subject Layout.errField var
  | _ => pure ()

/-! ### Results -/

def makeResult (ctx : Context) (span : Span) (ty : Nat) (isErr : Bool) (payload : Option Value) :
    LowerM Value := do
  match ctx.env.kind? ty with
  | some (.result ok err) =>
    let agg ← layoutOf ctx span ty
    let (filled, empty) := if isErr then (err, ok) else (ok, err)
    let tag ← insert (.bconst isErr)
    let payload ← match payload with
      | some value => pure (some value)
      | none => undefOf ctx filled
    let other ← undefOf ctx empty
    let (okValue, errValue) := if isErr then (other, payload) else (payload, other)
    insert (.makeAgg agg (tag :: okValue.toList ++ errValue.toList))
  | _ => inconsistent span .constructorOfNonResult

/-- The error payload to return early with, converted to the type that the function returns. -/
def propagatedError (ctx : Context) (span : Span) (result : Value) (source target : Nat) :
    LowerM (Option Value) := do
  match ctx.env.ty source, ctx.env.ty target with
  | .void, .void => return none
  | .void, _ =>
    inconsistent span (.unpropagatable (ctx.env.nameOf source) (ctx.env.nameOf target))
  | ty, _ =>
    let value ← insert (.extractField ty result Layout.errField)
    some <$> convert ctx span value source target

/-- Takes a result apart: an error is returned at once, otherwise control goes on with the value.
`ty` is the type of the result. -/
def propagate (ctx : Context) (span : Span) (ty : Nat) (result : Value) :
    LowerM (Option Value) := do
  match ctx.env.kind? ty, ctx.env.kind? ctx.body.ret with
  | some (.result ok err), some (.result retOk retErr) =>
    match ctx.env.agg? ctx.body.ret with
    | none => inconsistent span .resultWithoutLayout
    | some agg =>
      let tag ← insert (.extractField .i1 result Layout.tagField)
      let failing ← createBlock "try.propagate"
      let resume ← createBlock "try.continue"
      emit (.condBr tag failing resume)
      switchTo failing
      let error ← propagatedError ctx span result err retErr
      let isErr ← insert (.bconst true)
      let noValue ← undefOf ctx retOk
      let residual ← insert (.makeAgg agg (isErr :: noValue.toList ++ error.toList))
      emit (.ret (some residual))
      switchTo resume
      match ctx.env.ty ok with
      | .void => return none
      | ty => some <$> insert (.extractField ty result Layout.okField)
  | some (.result ..), _ =>
    inconsistent span (.propagationInNonResult (ctx.env.nameOf ctx.body.ret))
  | _, _ => inconsistent span (.propagationOfNonResult (ctx.env.nameOf ty))

/-- Calls a function of some type. Control does not come back from one that never returns. -/
def lowerCall (ctx : Context) (ty : Nat) (callee : String) (args : List Value) :
    LowerM (Option Value) := do
  let result ← insert (.call (ctx.env.ty ty) callee args)
  if ty = TypeTable.never then
    emit .unreachable
    enterDeadBlock
    return none
  return match ctx.env.ty ty with
    | .void => none
    | _ => some result

end SsaLowering.Lowering
