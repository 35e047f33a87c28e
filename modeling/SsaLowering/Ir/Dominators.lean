import SsaLowering.Ir.Function

/-!
# Dominators

A block dominates another if every path from the entry to the second passes through the first.
The immediate dominators are found by repeated improvement over the blocks in reverse postorder,
from the recorded predecessors of each block. The dominance frontier of a block holds the blocks
at which its dominance ends.
-/

namespace SsaLowering.Ir

/-- What a depth-first walk has seen: the blocks visited, and those left, latest first. -/
structure Walk where
  visited : List Block := []
  left : List Block := []

namespace Walk

/-- Visits a block and, before leaving it, all that can be reached from it through blocks not
visited yet. The depth of the walk is bounded by `fuel`. -/
def visit (succs : Block → List Block) : Nat → Walk → Block → Walk
  | 0, walk, _ => walk
  | fuel + 1, walk, block =>
    if block ∈ walk.visited then walk
    else
      let entered := { walk with visited := block :: walk.visited }
      let explored := (succs block).foldl (visit succs fuel) entered
      { explored with left := block :: explored.left }

end Walk

/-- The immediate dominators of a function and what is read off them. -/
structure Dominators where
  /-- The blocks that can be reached, in reverse postorder; the entry comes first. -/
  order : List Block
  rank : SideTable (Option Nat)
  idoms : SideTable (Option Block)
  /-- The blocks immediately dominated by each block, in reverse postorder. -/
  kids : SideTable (List Block)
  deriving Repr

namespace Dominators

def reversePostorder (function : Function) : List Block :=
  match function.entry? with
  | none => []
  | some entry => (Walk.visit function.successors (function.blocks.size + 1) {} entry).left

def ranks (order : List Block) : SideTable (Option Nat) :=
  (order.zipIdx).foldl (fun table (block, position) => table.set block.id (some position))
    { fallback := none }

/-- The meeting point of two chains of immediate dominators, given by places in the order. -/
def intersect (found : Array (Option Nat)) : Nat → Nat → Nat → Except Fault Nat
  | 0, _, _ => .error .undominated
  | fuel + 1, a, b =>
    if a = b then .ok a
    else if b < a then
      match found[a]? with
      | some (some next) => intersect found fuel next b
      | _ => .error .missing
    else
      match found[b]? with
      | some (some next) => intersect found fuel a next
      | _ => .error .missing

/-- The immediate dominator that the predecessors found so far agree on. -/
def candidate (found : Array (Option Nat)) (fuel : Nat) (preds : List Nat) :
    Except Fault (Option Nat) :=
  let join (best : Option Nat) (pred : Nat) : Except Fault (Option Nat) :=
    match found[pred]? with
    | some (some _) =>
      match best with
      | none => .ok (some pred)
      | some other => (intersect found fuel pred other).map some
    | _ => .ok best
  preds.foldlM join none

/-- One pass over the order from its second block on; tells whether anything changed. -/
def improve (preds : List (List Nat)) (fuel : Nat) (found : Array (Option Nat)) :
    Except Fault (Array (Option Nat) × Bool) :=
  let step (state : Array (Option Nat) × Bool) (entry : List Nat × Nat) :
      Except Fault (Array (Option Nat) × Bool) := do
    let (found, changed) := state
    let (blockPreds, place) := entry
    let best ← candidate found fuel blockPreds
    if found[place]? = some best then return (found, changed)
    return (found.setIfInBounds place best, true)
  (preds.zipIdx.drop 1).foldlM step (found, false)

def stabilize (preds : List (List Nat)) (chain : Nat) :
    Nat → Array (Option Nat) → Except Fault (Array (Option Nat))
  | 0, _ => .error .undominated
  | fuel + 1, found => do
    let (next, changed) ← improve preds chain found
    if changed then stabilize preds chain fuel next else return next

/-- The immediate dominator of each block of the order but the first, as blocks. -/
def immediate (order : List Block) (found : Array (Option Nat)) :
    Except Fault (List (Block × Block)) :=
  (order.zipIdx.drop 1).mapM fun (block, place) =>
    match (found[place]?).join.bind (order[·]?) with
    | some parent => .ok (block, parent)
    | none => .error .undominated

def compute (function : Function) : Except Fault Dominators := do
  let order := reversePostorder function
  unless order.all (fun block => function.blocks.holds block.id) do throw .missing
  let rank := ranks order
  let size := order.length
  let preds := order.map fun block =>
    (function.preds block).filterMap fun pred => rank.get pred.id
  let start := (Array.replicate size none).setIfInBounds 0 (some 0)
  let found ← stabilize preds (2 * size + 2) (size * size + size + 2) start
  let parents ← immediate order found
  return {
    order, rank
    idoms := parents.foldl (fun table (block, parent) => table.set block.id (some parent))
      { fallback := none }
    kids := parents.foldl (fun table (block, parent) => table.modify parent.id (· ++ [block]))
      { fallback := [] } }

def isReachable (dominators : Dominators) (block : Block) : Bool :=
  (dominators.rank.get block.id).isSome

/-- The immediate dominator; the entry and blocks that cannot be reached have none. -/
def idom (dominators : Dominators) (block : Block) : Option Block :=
  dominators.idoms.get block.id

def children (dominators : Dominators) (block : Block) : List Block :=
  dominators.kids.get block.id

/-- Climbs from `b` in search of `a`; above `a` the search has failed. -/
def climb (dominators : Dominators) (a : Block) (rank : Nat) : Nat → Block → Bool
  | 0, _ => false
  | fuel + 1, b =>
    if b = a then true
    else if (dominators.rank.get b.id).any (· < rank) then false
    else
      match dominators.idom b with
      | some parent => climb dominators a rank fuel parent
      | none => false

/-- Whether every path from the entry to `b` passes through `a`. -/
def dominates (dominators : Dominators) (a b : Block) : Bool :=
  match dominators.rank.get a.id with
  | none => false
  | some rank =>
    dominators.isReachable b && climb dominators a rank (dominators.order.length + 1) b

/-- The blocks from `runner` up to, and without, `stop`. -/
def chainBelow (dominators : Dominators) (stop : Block) : Nat → Block → List Block
  | 0, _ => []
  | fuel + 1, runner =>
    if !dominators.isReachable runner || runner = stop then []
    else
      match dominators.idom runner with
      | some parent => runner :: chainBelow dominators stop fuel parent
      | none => [runner]

/-- Adds a block to the frontier of another, once. -/
def addFrontier (frontiers : SideTable (List Block)) (of block : Block) : SideTable (List Block) :=
  if block ∈ frontiers.get of.id then frontiers else frontiers.modify of.id (· ++ [block])

/-- The blocks in whose frontier a block lies: with two predecessors or more, all that dominate
one of them and lie below its own immediate dominator. -/
def frontierOwners (dominators : Dominators) (function : Function) (block : Block) : List Block :=
  let preds := function.preds block
  match dominators.idom block with
  | none => []
  | some stop =>
    if preds.length < 2 then []
    else preds.flatMap (chainBelow dominators stop (dominators.order.length + 1))

def frontiers (dominators : Dominators) (function : Function) : SideTable (List Block) :=
  dominators.order.foldl
    (fun table block => (dominators.frontierOwners function block).foldl
      (fun table owner => addFrontier table owner block) table)
    { fallback := [] }

end Dominators

end SsaLowering.Ir
