import SsaLowering.Ir.Dominators

/-!
# Pruning

Deletes the blocks that cannot be reached from the entry, together with their edges into the
blocks that remain.
-/

namespace SsaLowering.Ssa

open SsaLowering.Ir

/-- Empties a block and takes its instructions out of it. -/
def clearBlock (function : Function) (block : Block) : Function :=
  let emptied := function.modifyBlock block fun info => { info with preds := [], insts := [] }
  (function.insts block).foldl
    (fun function value => function.modifyValue value fun info => { info with block := none })
    emptied

def keepMarked {α : Type} (items : List α) (marks : List Bool) : List α :=
  ((items.zip marks).filter Prod.snd).map Prod.fst

/-- Drops the arguments of a phi whose edge goes. -/
def dropArgs (marks : List Bool) : Inst → Inst
  | .phi ty args => .phi ty (keepMarked args marks)
  | inst => inst

/-- Drops the edges into a block that come from blocks which cannot be reached, and with them the
arguments of its phis. -/
def dropEdges (dominators : Dominators) (function : Function) (block : Block) : Function :=
  let preds := function.preds block
  let marks := preds.map dominators.isReachable
  if marks.all id then function
  else
    let trimmed := (function.phis block).foldl
      (fun function phi => function.modifyValue phi fun info =>
        { info with inst := dropArgs marks info.inst })
      function
    trimmed.modifyBlock block fun info => { info with preds := keepMarked preds marks }

/-- Deletes the blocks that cannot be reached; returns how many there were. -/
def prune (function : Function) : Except Fault (Nat × Function) := do
  let dominators ← Dominators.compute function
  let (live, dead) := function.layout.partition dominators.isReachable
  if dead.isEmpty then return (0, function)
  let cleared := dead.foldl clearBlock function
  let joined := live.foldl (dropEdges dominators) cleared
  return (dead.length, { joined with layout := live })

end SsaLowering.Ssa
