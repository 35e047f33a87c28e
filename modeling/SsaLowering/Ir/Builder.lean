import SsaLowering.Ir.Function

/-!
# Building functions

A builder holds a function under construction and a cursor, the block to which instructions are
appended. It records the predecessors of blocks as terminators are emitted, and marks the blocks
that the edges emitted so far make live. Parameters and stack slots go to the head of the entry
block, phis to the head of theirs.
-/

namespace SsaLowering.Ir

/-- A function under construction, with a cursor. -/
structure Builder where
  function : Function
  current : Block
  live : SideTable Bool
  /-- How many parameters and stack slots stand at the head of the entry block. -/
  entryHead : Nat
  /-- What the next values are attributed to. -/
  span : Span
  node : Nat
  deriving Repr

namespace Builder

def entryName : String :=
  "entry"

def firstBlock : Block :=
  ⟨0⟩

/-- A function that consists of an empty entry block. -/
def start (name : String) (ret : Ty) (span : Span) (node : Nat) : Builder where
  function :=
    { name, ret, span, node, blocks := #[{ name := entryName }], layout := [firstBlock] }
  current := firstBlock
  live := ({ fallback := false } : SideTable Bool).set firstBlock.id true
  entryHead := 0
  span := span
  node := node

def locateAt (builder : Builder) (span : Span) (node : Nat) : Builder :=
  { builder with span, node }

def entry (builder : Builder) : Block :=
  builder.function.entry?.getD firstBlock

def createBlock (builder : Builder) (name : String) : Block × Builder :=
  let block : Block := ⟨builder.function.blocks.size⟩
  (block, { builder with
    function := { builder.function with
      blocks := builder.function.blocks.push { name }
      layout := builder.function.layout ++ [block] } })

def switchTo (builder : Builder) (block : Block) : Builder :=
  { builder with current := block }

def isLive (builder : Builder) (block : Block) : Bool :=
  builder.live.get block.id

def isReachable (builder : Builder) : Bool :=
  builder.isLive builder.current

def isTerminated (builder : Builder) : Bool :=
  (builder.function.terminator? builder.current).isSome

def place (builder : Builder) (inst : Inst) (block : Block) (position : Nat) : Value × Builder :=
  let (value, function) := builder.function.addValue
    { inst, block := some block, span := builder.span, node := builder.node }
  (value, { builder with
    function := function.modifyBlock block fun info =>
      { info with insts := info.insts.insertIdx position value } })

/-- Adds a value behind the parameters and stack slots of the entry block. -/
def placeInEntry (builder : Builder) (inst : Inst) : Value × Builder :=
  let (value, builder) := builder.place inst builder.entry builder.entryHead
  (value, { builder with entryHead := builder.entryHead + 1 })

def param (builder : Builder) (ty : Ty) : Value × Builder :=
  let (value, builder) := builder.placeInEntry (.param ty builder.function.params.length)
  (value, { builder with
    function := { builder.function with params := builder.function.params ++ [value] } })

def alloca (builder : Builder) (ty : Ty) (pinned : Bool) : Value × Builder :=
  builder.placeInEntry (.alloca ty pinned)

def phi (builder : Builder) (block : Block) (ty : Ty) (args : List Value) :
    Except Fault (Value × Builder) :=
  if builder.function.blocks.holds block.id then
    .ok (builder.place (.phi ty args) block (builder.function.phis block).length)
  else
    .error .missing

/-- Records an edge; the target of an edge from a live block is live. -/
def addEdge (builder : Builder) (source target : Block) : Builder :=
  { builder with
    function := builder.function.modifyBlock target fun info =>
      { info with preds := info.preds ++ [source] }
    live := if builder.isLive source then builder.live.set target.id true else builder.live }

/-- Appends an instruction at the cursor, with its edges if it is a terminator. Nothing follows a
terminator. -/
def append (builder : Builder) (inst : Inst) : Except Fault (Value × Builder) :=
  let block := builder.current
  let inRange := fun (target : Block) => builder.function.blocks.holds target.id
  if !inRange block || !inst.successors.all inRange then
    .error .missing
  else if builder.isTerminated then
    .error .terminated
  else
    let (value, placed) := builder.place inst block (builder.function.insts block).length
    .ok (value, inst.successors.foldl (fun built target => built.addEdge block target) placed)

/-- Ends the current block with edges to some blocks: a return for none, a branch for one, and for
more a condition that chooses between the first two. -/
def endWith (builder : Builder) : List Block → Except Fault Builder
  | [] => return (← builder.append (.ret none)).2
  | [target] => return (← builder.append (.br target)).2
  | onTrue :: onFalse :: _ => do
    let (condition, builder) ← builder.append (.bconst true)
    return (← builder.append (.condBr condition onTrue onFalse)).2

/-- A function that returns nothing and whose blocks have the given successors, in order. -/
def ofSuccessors (successors : List (List Block)) : Except Fault Builder :=
  let blocks := successors.tail.foldl (fun builder _ => (builder.createBlock "b").2)
    (start "f" .void .zero 0)
  successors.zipIdx.foldlM
    (fun builder (targets, place) => (builder.switchTo ⟨place⟩).endWith targets) blocks

end Builder

end SsaLowering.Ir
