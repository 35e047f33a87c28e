import SsaLowering.Ir.Builder
import SsaLowering.Lowering.Environment
import SsaLowering.Lowering.Error
import SsaLowering.Lowering.Report
import SsaLowering.Lowering.Scope

/-!
# The state of lowering

Lowering a body is one walk over it that drives a function builder. The state holds the builder,
the visible locals, the loops around the cursor and the reports made so far; it outlives an error.
It also notes what was asked and bound; no step depends on the notes.
-/

namespace SsaLowering.Lowering

open SsaLowering.Core (Local Body)
open SsaLowering.Ir

/-- Where `break` and `continue` go. -/
structure LoopTargets where
  exit : Block
  next : Block
  deriving DecidableEq, Repr

/-- What lowering asks of its state, with the answer, or adds to its scopes. -/
inductive Note where
  /-- Whether control can reach the block of the cursor. -/
  | asked (block : Block) (answer : Bool)
  /-- How a new local is held. -/
  | bound (var : Local) (binding : Binding)
  /-- How a local that is read or assigned is held, if it is visible. -/
  | used (var : Local) (held : Option Binding)

/-- The function so far, and what is around the cursor. -/
structure LowerState where
  builder : Builder
  scopes : ScopeStack := {}
  /-- The loops around the cursor, the innermost first. -/
  loops : List LoopTargets := []
  reports : List Report := []
  /-- What has been asked and bound, the latest first. -/
  notes : List Note := []

def LowerState.noted (state : LowerState) (entry : Note) : LowerState :=
  { state with notes := entry :: state.notes }

abbrev LowerM := EStateM LowerError LowerState

/-- What stays the same while a body is lowered. -/
structure Context where
  env : Environment
  body : Body

def Context.localName (ctx : Context) (var : Local) : String :=
  ((ctx.body.local? var).map Core.LocalDecl.name).getD ""

def Context.localType (ctx : Context) (var : Local) : Nat :=
  ((ctx.body.local? var).map Core.LocalDecl.ty).getD 0

def inconsistent {α : Type} (span : Span) (cause : Inconsistency) : LowerM α :=
  throw (.internal { span, cause })

def build {α : Type} (step : Builder → α × Builder) : LowerM α :=
  modifyGet fun state =>
    let (result, builder) := step state.builder
    (result, { state with builder })

def tryBuild {α : Type} (step : Builder → Except Fault (α × Builder)) : LowerM α := do
  let state ← get
  match step state.builder with
  | .ok (result, builder) =>
    set { state with builder }
    return result
  | .error fault => throw (.fault fault)

def locate (span : Span) (node : Nat) : LowerM Unit :=
  build fun builder => ((), builder.locateAt span node)

def insert (inst : Inst) : LowerM Value :=
  tryBuild fun builder => builder.append inst

/-- Appends an instruction whose value is not used. -/
def emit (inst : Inst) : LowerM Unit :=
  discard (insert inst)

def createBlock (name : String) : LowerM Block :=
  build fun builder => builder.createBlock name

def switchTo (block : Block) : LowerM Unit :=
  build fun builder => ((), builder.switchTo block)

def currentBlock : LowerM Block :=
  return (← get).builder.current

def isReachable : LowerM Bool :=
  modifyGet fun state =>
    let answer := state.builder.isReachable
    (answer, state.noted (.asked state.builder.current answer))

def report (kind : ReportKind) (span : Span) (message : String) : LowerM Unit :=
  modify fun state => { state with reports := state.reports ++ [{ kind, span, message }] }

/-- Moves the cursor to a new block that no edge leads to. -/
def enterDeadBlock : LowerM Unit := do
  switchTo (← createBlock "dead")

/-- Ends the block of the cursor, which control cannot reach. -/
def sealDeadBlock : LowerM Unit := do
  if !(← get).builder.isTerminated then emit .unreachable

def enterScope : LowerM Unit :=
  modify fun state => { state with scopes := state.scopes.push }

def leaveScope : LowerM Unit :=
  modify fun state => { state with scopes := state.scopes.pop }

def lookup (var : Local) : LowerM (Option Binding) :=
  modifyGet fun state =>
    let held := state.scopes.lookup var
    (held, state.noted (.used var held))

def undef (ty : Ty) : LowerM Value :=
  insert (.undef ty)

/-- An undefined value of a static type, if the type has values. -/
def undefOf (ctx : Context) (ty : Nat) : LowerM (Option Value) :=
  match ctx.env.ty ty with
  | .void => pure none
  | ty => some <$> undef ty

/-- How a new local is held: in a slot if it may change, is captured or has no value yet. -/
def chooseBinding (ctx : Context) (var : Local) (value : Option Value) : LowerM Binding := do
  let decl := (ctx.body.local? var).getD { name := "", ty := 0, mutable := false }
  match ctx.env.ty decl.ty, value with
  | .void, _ => return .unit
  | ty, none =>
    let address ← build fun builder => builder.alloca ty decl.captured
    return .slot address ty
  | ty, some value =>
    if decl.mutable || decl.captured then
      let address ← build fun builder => builder.alloca ty decl.captured
      emit (.store address value)
      return .slot address ty
    else return .value value

/-- Makes a local visible, given the value that it starts with. -/
def bindLocal (ctx : Context) (var : Local) (value : Option Value) : LowerM Unit := do
  let binding ← chooseBinding ctx var value
  modify fun state =>
    { state.noted (.bound var binding) with scopes := state.scopes.bind var binding }

end SsaLowering.Lowering
