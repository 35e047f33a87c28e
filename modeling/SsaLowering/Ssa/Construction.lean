import SsaLowering.Ssa.Pruning
import SsaLowering.Ssa.Renaming

/-!
# Construction of SSA form

Brings a function from slot form into pruned SSA form: blocks that cannot be reached are deleted,
phis are placed for the slots that can be promoted, loads are replaced by what they read, and the
slots with all their accesses are dropped.
-/

namespace SsaLowering.Ssa

open SsaLowering.Ir

/-- What construction did, in numbers. -/
structure Stats where
  prunedBlocks : Nat := 0
  promotedSlots : Nat := 0
  phis : Nat := 0
  deriving DecidableEq, Repr

/-- The end of a chain of replacements. -/
def resolve (reads : List (Value × Value)) : Nat → Value → Value
  | 0, value => value
  | fuel + 1, value =>
    match reads.lookup value with
    | some next => resolve reads fuel next
    | none => value

/-- Drops the slot accesses of a block and replaces the loads in what remains. -/
def rewriteBlock (removed : Value → Bool) (replace : Value → Value) (function : Function)
    (block : Block) : Function :=
  let insts := function.insts block
  let rewritten := insts.foldl
    (fun function value =>
      if removed value then function.modifyValue value fun info => { info with block := none }
      else function.modifyValue value fun info =>
        { info with inst := info.inst.mapOperands replace })
    function
  rewritten.modifyBlock block fun info => { info with insts := insts.filter (!removed ·) }

/-- Replaces every use of a promoted load and drops the slots and their accesses. -/
def applyRenaming (slots : List Slot) (walk : Renaming) : Function :=
  let function := walk.function
  let accesses := function.placedValues.filter fun value =>
    (access? slots function value).isSome
  let removed (value : Value) : Bool :=
    slots.any (·.address = value) || accesses.contains value
  let replace := resolve walk.reads (walk.reads.length + 1)
  function.layout.foldl (rewriteBlock removed replace) function

/-- Promotes some slots of a function without unreachable blocks; returns how many phis were
placed. -/
def promote (slots : List Slot) (dominators : Dominators) (entry : Block) (function : Function) :
    Nat × Function :=
  let placed := placePhis slots function dominators
  let scene : Scene := { slots, phis := placed.phis, dominators }
  let walk := renameTree scene (dominators.order.length + 1) [] { function := placed.function }
    entry
  (placed.phis.length, applyRenaming slots walk)

/-- Brings a function into SSA form. A declaration stays as it is. -/
def construct (function : Function) : Except Fault (Stats × Function) := do
  let some entry := function.entry? | return ({}, function)
  let (prunedBlocks, pruned) ← prune function
  let dominators ← Dominators.compute pruned
  let slots := promotable pruned
  if slots.isEmpty then return ({ prunedBlocks }, pruned)
  let (phis, promoted) := promote slots dominators entry pruned
  return ({ prunedBlocks, promotedSlots := slots.length, phis }, promoted)

end SsaLowering.Ssa
