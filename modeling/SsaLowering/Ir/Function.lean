import SsaLowering.Span
import SsaLowering.Ir.Inst

/-!
# Functions and modules

A function owns two arenas, its values and its blocks. The layout lists the blocks that make up
the body, entry first; a function with an empty layout is a declaration. Values and blocks that
were removed keep their place in the arenas.
-/

namespace SsaLowering.Ir

/-- An instruction together with where it stands and where it comes from. -/
structure ValueInfo where
  inst : Inst
  /-- The block that holds the instruction, unless it was removed. -/
  block : Option Block
  span : Span
  node : Nat
  deriving DecidableEq, Repr

/-- A block with its recorded predecessors. -/
structure BlockInfo where
  name : String
  /-- The sources of the edges into the block, in the order in which the edges were made. -/
  preds : List Block := []
  insts : List Value := []
  deriving DecidableEq, Repr, Inhabited

structure Tag where
  key : String
  text : String
  deriving DecidableEq, Repr

/-- A function: arenas of values and blocks, and the layout of its body. -/
structure Function where
  name : String
  ret : Ty
  span : Span
  node : Nat
  params : List Value := []
  values : Arena ValueInfo := #[]
  blocks : Arena BlockInfo := #[]
  /-- The blocks of the body in order, entry first. -/
  layout : List Block := []
  /-- The tags of each tagged value, in increasing order of values. -/
  tags : List (Value × List Tag) := []
  deriving DecidableEq, Repr

namespace Function

/-- A function without a body, known by its parameter types only. -/
def declaration (name : String) (params : List Ty) (ret : Ty) (span : Span) (node : Nat) :
    Function :=
  { name, ret, span, node
    params := (List.range params.length).map Value.mk
    values := (params.mapIdx fun position ty =>
      { inst := .param ty position, block := none, span, node : ValueInfo }).toArray }

def isDeclaration (function : Function) : Bool :=
  function.layout.isEmpty

def entry? (function : Function) : Option Block :=
  function.layout.head?

def value? (function : Function) (value : Value) : Option ValueInfo :=
  function.values[value.id]?

def inst? (function : Function) (value : Value) : Option Inst :=
  (function.value? value).map ValueInfo.inst

def ty (function : Function) (value : Value) : Ty :=
  ((function.inst? value).map Inst.ty).getD .void

def block? (function : Function) (block : Block) : Option BlockInfo :=
  function.blocks[block.id]?

def insts (function : Function) (block : Block) : List Value :=
  ((function.block? block).map BlockInfo.insts).getD []

/-- The recorded predecessors of a block. -/
def preds (function : Function) (block : Block) : List Block :=
  ((function.block? block).map BlockInfo.preds).getD []

def instIs (function : Function) (property : Inst → Bool) (value : Value) : Bool :=
  (function.inst? value).any property

/-- The last instruction of a block, if it is a terminator. -/
def terminator? (function : Function) (block : Block) : Option Value :=
  (function.insts block).getLast?.filter (function.instIs Inst.isTerminator)

def successors (function : Function) (block : Block) : List Block :=
  (((function.terminator? block).bind function.inst?).map Inst.successors).getD []

def phis (function : Function) (block : Block) : List Value :=
  (function.insts block).takeWhile (function.instIs Inst.isPhi)

def placedValues (function : Function) : List Value :=
  function.layout.flatMap function.insts

def valuesForNode (function : Function) (node : Nat) : List Value :=
  function.placedValues.filter fun value => (function.value? value).any (·.node == node)

def countPhis (function : Function) : Nat :=
  function.placedValues.countP (function.instIs Inst.isPhi)

def countReturns (function : Function) : Nat :=
  function.placedValues.countP (function.instIs Inst.isRet)

def addTag (tags : List (Value × List Tag)) (value : Value) (tag : Tag) :
    List (Value × List Tag) :=
  match tags with
  | [] => [(value, [tag])]
  | (other, present) :: rest =>
    if other = value then (other, present ++ [tag]) :: rest
    else if value.id < other.id then (value, [tag]) :: (other, present) :: rest
    else (other, present) :: addTag rest value tag

def attachTag (function : Function) (value : Value) (tag : Tag) : Function :=
  { function with tags := addTag function.tags value tag }

def tagsOf (function : Function) (value : Value) : List Tag :=
  (function.tags.lookup value).getD []

def modifyValue (function : Function) (value : Value) (change : ValueInfo → ValueInfo) :
    Function :=
  { function with values := function.values.modify value.id change }

def modifyBlock (function : Function) (block : Block) (change : BlockInfo → BlockInfo) :
    Function :=
  { function with blocks := function.blocks.modify block.id change }

/-- Adds a value without placing it in its block. -/
def addValue (function : Function) (info : ValueInfo) : Value × Function :=
  (⟨function.values.size⟩, { function with values := function.values.push info })

end Function

inductive Constant where
  | zero
  | int (value : Int64)
  /-- A floating-point number, by its bit pattern. -/
  | float (bits : UInt64)
  | bool (value : Bool)
  | str (text : String)
  deriving DecidableEq, Repr

structure Global where
  name : String
  ty : Ty
  init : Constant
  deriving DecidableEq, Repr

/-- Types, globals and functions. -/
structure Module where
  name : String
  types : LayoutTable := {}
  globals : Arena Global := #[]
  functions : Arena Function := #[]
  deriving Repr

namespace Module

def function? (module : Module) (name : String) : Option Function :=
  module.functions.toList.find? (·.name == name)

def global? (module : Module) (name : String) : Option Global :=
  module.globals.toList.find? (·.name == name)

def same (a b : Module) : Bool :=
  a.name == b.name && a.types.same b.types && a.globals == b.globals
    && a.functions == b.functions

end Module

end SsaLowering.Ir
