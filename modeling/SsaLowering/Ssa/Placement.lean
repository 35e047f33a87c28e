import SsaLowering.Ir.Dominators
import SsaLowering.Ssa.Slots

/-!
# Placement of phis

A slot needs a phi in the blocks of the iterated dominance frontier of its stores at whose entry
it is live, that is, may be loaded before it is stored to.
-/

namespace SsaLowering.Ssa

open SsaLowering.Ir

/-- Adds to a set of live blocks those from which a block of the worklist is reached without a
store in between. -/
def spreadLive (function : Function) (stored : Block → Bool) :
    Nat → List Block → List Block → List Block
  | 0, live, _ => live
  | _ + 1, live, [] => live
  | fuel + 1, live, block :: rest =>
    let fresh := ((function.preds block).filter fun pred => !stored pred && pred ∉ live).eraseDups
    spreadLive function stored fuel (live ++ fresh) (fresh.reverse ++ rest)

def liveBlocks (slots : List Slot) (function : Function) (dominators : Dominators) (slot : Slot) :
    List Block :=
  let uses := dominators.order.filter (loadsFirst slots function slot)
  spreadLive function (stores slots function slot) (function.blocks.size + uses.length + 1)
    uses uses.reverse

/-- A function with the phis inserted so far, each with the slot it stands for. -/
structure Placed where
  function : Function
  phis : List (Value × Slot) := []

/-- Inserts a phi for a slot behind the phis of a block. Its arguments are the address of the slot
until renaming replaces them. -/
def insertPhi (placed : Placed) (slot : Slot) (block : Block) : Placed :=
  let function := placed.function
  let arity := (function.preds block).length
  let origin := function.value? slot.address
  let position := (function.phis block).length
  let (phi, extended) := function.addValue
    { inst := .phi slot.ty (List.replicate arity slot.address)
      block := some block
      span := (origin.map ValueInfo.span).getD .zero
      node := (origin.map ValueInfo.node).getD 0 }
  { function := extended.modifyBlock block fun info =>
      { info with insts := info.insts.insertIdx position phi }
    phis := placed.phis ++ [(phi, slot)] }

/-- The progress of placing the phis of one slot. -/
structure Spread where
  placed : Placed
  /-- Blocks that have a phi for the slot. -/
  done : List Block := []
  /-- Blocks that are or were on the worklist. -/
  queued : List Block
  /-- Blocks that define the slot and whose frontier is still to be visited, latest first. -/
  worklist : List Block

/-- Gives a block of a frontier its phi, if it needs one and has none. -/
def visitFrontier (slot : Slot) (live : List Block) (state : Spread) (block : Block) : Spread :=
  if block ∉ live ∨ block ∈ state.done then state
  else
    let state := { state with
      placed := insertPhi state.placed slot block
      done := block :: state.done }
    if block ∈ state.queued then state
    else { state with queued := block :: state.queued, worklist := block :: state.worklist }

/-- Visits the frontiers of the blocks on the worklist until it is empty. -/
def spread (frontiers : SideTable (List Block)) (slot : Slot) (live : List Block) :
    Nat → Spread → Placed
  | 0, state => state.placed
  | fuel + 1, state =>
    match state.worklist with
    | [] => state.placed
    | block :: rest =>
      spread frontiers slot live fuel
        ((frontiers.get block.id).foldl (visitFrontier slot live) { state with worklist := rest })

def placeSlot (slots : List Slot) (function : Function) (dominators : Dominators)
    (frontiers : SideTable (List Block)) (placed : Placed) (slot : Slot) : Placed :=
  let defs := dominators.order.filter (stores slots function slot)
  spread frontiers slot (liveBlocks slots function dominators slot)
    (dominators.order.length + 1)
    { placed, queued := defs, worklist := defs.reverse }

/-- Inserts the phis of all slots. A slot that is listed more than once has its turn where it is
listed last. -/
def placePhis (slots : List Slot) (function : Function) (dominators : Dominators) : Placed :=
  slots.reverse.eraseDups.reverse.foldl
    (placeSlot slots function dominators (dominators.frontiers function)) { function }

end SsaLowering.Ssa
