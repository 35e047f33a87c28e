import SsaLowering.Ssa.Placement

/-!
# Renaming

A walk over the dominator tree finds for every load of a promoted slot the value that it reads,
and for every inserted phi the values that flow into it. What reaches no store reads as an
undefined value, one for each type, right behind the parameters.
-/

namespace SsaLowering.Ssa

open SsaLowering.Ir

/-- The state of the walk along the dominator tree. -/
structure Renaming where
  function : Function
  /-- What each load reads. -/
  reads : List (Value × Value) := []
  /-- The undefined value of each type. -/
  undefs : List (Ty × Value) := []

/-- The value that each slot holds at a point, by the address of the slot. -/
abbrev Held := List (Value × Value)

namespace Renaming

def undef (state : Renaming) (ty : Ty) : Value × Renaming :=
  match state.undefs.lookup ty with
  | some value => (value, state)
  | none =>
    let function := state.function
    let entry := function.entry?.getD default
    let (value, extended) := function.addValue
      { inst := .undef ty, block := some entry, span := function.span, node := function.node }
    (value, { state with
      function := extended.modifyBlock entry fun info =>
        { info with insts := info.insts.insertIdx function.params.length value }
      undefs := state.undefs ++ [(ty, value)] })

def current (state : Renaming) (held : Held) (slot : Slot) : Value × Renaming :=
  match held.lookup slot.address with
  | some value => (value, state)
  | none => state.undef slot.ty

end Renaming

/-- The parts that stay fixed during the walk. -/
structure Scene where
  slots : List Slot
  phis : List (Value × Slot)
  dominators : Dominators

/-- Follows one instruction: a phi and a store set what the slot holds, a load reads it. -/
def renameInst (scene : Scene) (state : Held × Renaming) (value : Value) : Held × Renaming :=
  let (held, walk) := state
  match scene.phis.lookup value with
  | some slot => ((slot.address, value) :: held, walk)
  | none =>
    match access? scene.slots walk.function value with
    | none => (held, walk)
    | some (slot, .store stored) =>
      ((slot.address, (walk.reads.lookup stored).getD stored) :: held, walk)
    | some (slot, .load) =>
      let (source, walk) := walk.current held slot
      (held, { walk with reads := (value, source) :: walk.reads })

def setArgs (places : List Nat) (incoming : Value) : Inst → Inst
  | .phi ty args => .phi ty (places.foldl (fun args place => args.set place incoming) args)
  | inst => inst

/-- Fills in the arguments that flow along the edges from one block to another. -/
def fillEdge (scene : Scene) (held : Held) (block : Block) (walk : Renaming)
    (target : Block) : Renaming :=
  let places := (walk.function.preds target).zipIdx.filterMap fun (pred, place) =>
    if pred = block then some place else none
  (walk.function.phis target).foldl
    (fun walk phi =>
      match scene.phis.lookup phi with
      | none => walk
      | some slot =>
        let (incoming, walk) := walk.current held slot
        { walk with
          function := walk.function.modifyValue phi fun info =>
            { info with inst := setArgs places incoming info.inst } })
    walk

def renameTree (scene : Scene) : Nat → Held → Renaming → Block → Renaming
  | 0, _, walk, _ => walk
  | fuel + 1, held, walk, block =>
    let (held, walk) :=
      (walk.function.insts block).foldl (renameInst scene) (held, walk)
    let filled := (walk.function.successors block).foldl (fillEdge scene held block) walk
    (scene.dominators.children block).foldl (renameTree scene fuel held) filled

end SsaLowering.Ssa
