import SsaLowering.Ir.Dominators

/-!
# Verification

Checks that a function is well formed: blocks end in their only terminator, recorded predecessors
agree with the edges, phis and parameters stand where they belong, every operand is defined before
its use on every path, and types agree. The first malformation in a fixed order of checks is
reported.
-/

namespace SsaLowering.Ir

/-- What can be wrong with a function. -/
inductive Malformation where
  | noEntry
  | entryHasPreds (block : Block)
  | unreachable (block : Block)
  | missingTerminator (block : Block)
  | terminatorNotLast (block : Block) (value : Value)
  | duplicateDefinition (value : Value)
  | wrongBlock (value : Value) (actual : Block) (recorded : Option Block)
  | predMismatch (block : Block) (recorded computed : List Block)
  | phiNotAtHead (block : Block) (value : Value)
  | phiArity (block : Block) (value : Value) (args preds : Nat)
  | misplacedParam (value : Value)
  | undefinedOperand (value operand : Value)
  | notDominated (value operand : Value)
  | typeMismatch (value operand : Value) (expected found : Ty)
  | returnType (value : Value) (expected : Ty)
  | voidOperand (value operand : Value)
  | unknownAgg (value : Value) (agg : Nat)
  | aggArity (value : Value) (agg expected found : Nat)
  | badField (value operand : Value) (position : Nat) (ty : Ty)
  deriving DecidableEq, Repr

namespace Malformation

def renderBlocks (blocks : List Block) : String :=
  "[" ++ String.intercalate ", " (blocks.map Block.render) ++ "]"

def renderRecorded : Option Block → String
  | some block => "Some(" ++ block.render ++ ")"
  | none => "None"

def message : Malformation → String
  | noEntry => "function has no entry block"
  | entryHasPreds block => "entry block " ++ block.render ++ " has predecessors"
  | unreachable block => "block " ++ block.render ++ " is not reachable from the entry block"
  | missingTerminator block => "block " ++ block.render ++ " does not end with a terminator"
  | terminatorNotLast block value =>
    "terminator " ++ value.render ++ " is not the last instruction of " ++ block.render
  | duplicateDefinition value => value.render ++ " is defined more than once"
  | wrongBlock value actual recorded =>
    value.render ++ " is placed in " ++ actual.render ++ " but records " ++ renderRecorded recorded
  | predMismatch block recorded computed =>
    "predecessors of " ++ block.render ++ " are " ++ renderBlocks recorded ++ ", edges say "
      ++ renderBlocks computed
  | phiNotAtHead block value =>
    "phi " ++ value.render ++ " is not at the head of " ++ block.render
  | phiArity block value args preds =>
    "phi " ++ value.render ++ " in " ++ block.render ++ " has " ++ toString args
      ++ " arguments for " ++ toString preds ++ " predecessors"
  | misplacedParam value => "param " ++ value.render ++ " is not at the head of the entry block"
  | undefinedOperand value operand =>
    value.render ++ " uses " ++ operand.render ++ ", which is not defined in the function body"
  | notDominated value operand =>
    value.render ++ " uses " ++ operand.render ++ ", whose definition does not dominate the use"
  | typeMismatch value operand expected found =>
    value.render ++ " expects an operand of type " ++ expected.render ++ ", " ++ operand.render
      ++ " has type " ++ found.render
  | returnType value expected =>
    "return " ++ value.render ++ " does not match the declared return type " ++ expected.render
  | voidOperand value operand =>
    value.render ++ " uses " ++ operand.render ++ ", which has no value"
  | unknownAgg value agg =>
    value.render ++ " refers to " ++ Ty.aggName agg ++ ", which is not in the type table"
  | aggArity value agg expected found =>
    value.render ++ " builds " ++ Ty.aggName agg ++ " from " ++ toString found
      ++ " values, its layout has " ++ toString expected ++ " non-void fields"
  | badField value operand position ty =>
    value.render ++ " reads field " ++ toString position ++ " of " ++ operand.render
      ++ ", which has no such field of type " ++ ty.render

end Malformation

/-- Where each placed value stands: its block and its place there. -/
abbrev Positions := SideTable (Option (Block × Nat))

namespace Function

/-- Notes where one value stands, which it must also record itself. -/
def notePosition (function : Function) (block : Block) (positions : Positions)
    (entry : Value × Nat) : Except Malformation Positions :=
  let (value, place) := entry
  let recorded := (function.value? value).bind ValueInfo.block
  if (positions.get value.id).isSome then .error (.duplicateDefinition value)
  else if recorded ≠ some block then .error (.wrongBlock value block recorded)
  else .ok (positions.set value.id (some (block, place)))

def positions (function : Function) : Except Malformation Positions :=
  function.layout.foldlM
    (fun positions block =>
      (function.insts block).zipIdx.foldlM (function.notePosition block) positions)
    { fallback := none }

/-- What may still come in a block: phis, then parameters. -/
structure HeadState where
  phis : Bool
  params : Bool

def checkPlace (function : Function) (block : Block) (state : HeadState) (entry : Value × Nat) :
    Except Malformation HeadState :=
  let (value, place) := entry
  let inst? := function.inst? value
  if inst?.any Inst.isTerminator && place + 1 != (function.insts block).length then
    .error (.terminatorNotLast block value)
  else
    match inst? with
    | some (.phi _ args) =>
      if !state.phis then .error (.phiNotAtHead block value)
      else if args.length ≠ (function.preds block).length then
        .error (.phiArity block value args.length (function.preds block).length)
      else .ok state
    | some (.param ..) =>
      if !state.params then .error (.misplacedParam value)
      else .ok { state with phis := false }
    | _ => .ok ⟨false, false⟩

/-- Phis first, parameters only at the head of the entry block, one terminator and that last. -/
def checkShape (function : Function) (entry block : Block) : Except Malformation Unit := do
  if (function.terminator? block).isNone then throw (.missingTerminator block)
  let _ ← (function.insts block).zipIdx.foldlM (function.checkPlace block)
    ⟨true, decide (block = entry)⟩

def sortBlocks (blocks : List Block) : List Block :=
  blocks.mergeSort fun a b => a.id ≤ b.id

/-- The sources of the edges into a block, one for each edge, in layout order. -/
def edgeSources (function : Function) (block : Block) : List Block :=
  function.layout.flatMap fun source =>
    List.replicate ((function.successors source).count block) source

/-- Recorded predecessors are the sources of the edges, in any order. -/
def checkPreds (function : Function) (block : Block) : Except Malformation Unit :=
  let recorded := sortBlocks (function.preds block)
  let computed := sortBlocks (function.edgeSources block)
  if recorded = computed then .ok () else .error (.predMismatch block recorded computed)

/-- Whether a definition comes before a use. The argument of a phi is used at the end of the
predecessor it comes from. -/
def definedBefore (function : Function) (dominators : Dominators) (positions : Positions)
    (block : Block) (value : Value) (slot : Nat) (definition : Block × Nat) : Bool :=
  if function.instIs Inst.isPhi value then
    ((function.preds block)[slot]?).any (dominators.dominates definition.1)
  else if definition.1 = block then
    (positions.get value.id).any fun position => definition.2 < position.2
  else
    dominators.dominates definition.1 block

def checkOperand (function : Function) (dominators : Dominators) (positions : Positions)
    (block : Block) (value : Value) (entry : Value × Nat) : Except Malformation Unit :=
  let (operand, slot) := entry
  match positions.get operand.id with
  | none => .error (.undefinedOperand value operand)
  | some definition =>
    if function.ty operand = .void then .error (.voidOperand value operand)
    else if function.definedBefore dominators positions block value slot definition then .ok ()
    else .error (.notDominated value operand)

/-- Every operand is placed, has a value, and is defined before its use. -/
def checkOperands (function : Function) (dominators : Dominators) (positions : Positions)
    (block : Block) (value : Value) : Except Malformation Unit :=
  (((function.inst? value).map Inst.operands).getD []).zipIdx.forM
    (function.checkOperand dominators positions block value)

def expectTy (function : Function) (value operand : Value) (expected : Ty) :
    Except Malformation Unit :=
  let found := function.ty operand
  if found = expected then .ok () else .error (.typeMismatch value operand expected found)

def layoutOf (types : LayoutTable) (value : Value) (agg : Nat) : Except Malformation Layout :=
  match types.get? agg with
  | some layout => .ok layout
  | none => .error (.unknownAgg value agg)

def fieldOf (types : LayoutTable) (value : Value) (ty : Ty) (position : Nat) :
    Except Malformation (Option Ty) :=
  match ty with
  | .agg agg => return (← layoutOf types value agg).fields[position]?
  | _ => return none

def checkTypes (function : Function) (types : LayoutTable) (value : Value) :
    Except Malformation Unit :=
  match function.inst? value with
  | some (.phi ty args) => args.forM fun arg => function.expectTy value arg ty
  | some (.binary _ ty lhs rhs) => do
    function.expectTy value lhs ty
    function.expectTy value rhs ty
  | some (.unary _ ty operand) => function.expectTy value operand ty
  | some (.icmp _ lhs rhs) => function.expectTy value rhs (function.ty lhs)
  | some (.fcmp _ lhs rhs) => do
    function.expectTy value lhs .f64
    function.expectTy value rhs .f64
  | some (.load _ address) | some (.fieldPtr _ address _) | some (.store address _) =>
    function.expectTy value address .ptr
  | some (.condBr condition _ _) => function.expectTy value condition .i1
  | some (.new agg) => do
    let _ ← layoutOf types value agg
  | some (.makeAgg agg fields) => do
    let expected := (← layoutOf types value agg).valueFields
    if fields.length ≠ expected.length then
      throw (.aggArity value agg expected.length fields.length)
    (fields.zip expected).forM fun (field, ty) => function.expectTy value field ty
  | some (.extractField ty aggregate position) => do
    let field ← fieldOf types value (function.ty aggregate) position
    if field = some ty ∧ ty ≠ .void then return
    throw (.badField value aggregate position ty)
  | some (.ret (some result)) =>
    if function.ty result = function.ret then .ok ()
    else .error (.returnType value function.ret)
  | some (.ret none) =>
    if function.ret = .void then .ok () else .error (.returnType value function.ret)
  | _ => .ok ()

def checkBody (function : Function) (types : LayoutTable) (positions : Positions)
    (dominators : Dominators) : Except Malformation Unit := do
  let some entry := function.entry? | throw .noEntry
  unless (function.preds entry).isEmpty do throw (.entryHasPreds entry)
  function.layout.forM fun block => do
    unless dominators.isReachable block do throw (.unreachable block)
    function.checkShape entry block
  function.layout.forM function.checkPreds
  function.layout.forM fun block => (function.insts block).forM fun value => do
    function.checkOperands dominators positions block value
    function.checkTypes types value

/-- Verifies a function against the layouts that it refers to. There is no verdict where the
recorded predecessors determine no dominators. -/
def verify (function : Function) (types : LayoutTable) :
    Except Fault (Except Malformation Unit) :=
  match function.positions with
  | .error malformation => .ok (.error malformation)
  | .ok positions => do
    return function.checkBody types positions (← Dominators.compute function)

end Function

structure ModuleMalformation where
  function : String
  malformation : Malformation
  deriving DecidableEq, Repr

def ModuleMalformation.message (problem : ModuleMalformation) : String :=
  "in function `" ++ problem.function ++ "`: " ++ problem.malformation.message

/-- Verifies the functions with a body, up to the first that is malformed. -/
def verifyAll (types : LayoutTable) :
    List Function → Except Fault (Except ModuleMalformation Unit)
  | [] => .ok (.ok ())
  | function :: rest =>
    if function.isDeclaration then verifyAll types rest
    else do
      match ← function.verify types with
      | .ok () => verifyAll types rest
      | .error malformation => return .error ⟨function.name, malformation⟩

def Module.verify (module : Module) : Except Fault (Except ModuleMalformation Unit) :=
  verifyAll module.types module.functions.toList

end SsaLowering.Ir
