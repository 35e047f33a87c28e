import SsaLowering.Ir.Function

/-!
# Stack slots

A slot can be promoted to values if it is not pinned and its address is used for nothing but
loading from it and storing to it.
-/

namespace SsaLowering.Ssa

open SsaLowering.Ir

/-- A stack slot, by the value that is its address, and the type of what it holds. -/
structure Slot where
  address : Value
  ty : Ty
  deriving DecidableEq, Repr

/-- The slot that an instruction makes, unless it is pinned. -/
def slotMade? (function : Function) (value : Value) : Option Slot :=
  match function.inst? value with
  | some (.alloca ty false) => some ⟨value, ty⟩
  | _ => none

/-- The values that an instruction uses other than as the address of a load or store. -/
def escaping (function : Function) (value : Value) : List Value :=
  match function.inst? value with
  | some (.load ..) => []
  | some (.store _ stored) => [stored]
  | some inst => inst.operands
  | none => []

/-- The slots that can be promoted, in layout order. -/
def promotable (function : Function) : List Slot :=
  let escaped := function.placedValues.flatMap (escaping function)
  (function.placedValues.filterMap (slotMade? function)).filter fun slot =>
    slot.address ∉ escaped

inductive Access where
  | load
  | store (stored : Value)
  deriving DecidableEq, Repr

/-- The slot, among some, that an instruction loads from or stores to. -/
def access? (slots : List Slot) (function : Function) (value : Value) : Option (Slot × Access) :=
  let slotAt (address : Value) := slots.find? (·.address = address)
  match function.inst? value with
  | some (.load _ address) => (slotAt address).map (·, .load)
  | some (.store address stored) => (slotAt address).map (·, .store stored)
  | _ => none

/-- The accesses of a block to one slot, in order. -/
def accessesIn (slots : List Slot) (function : Function) (slot : Slot) (block : Block) :
    List Access :=
  (function.insts block).filterMap fun value =>
    match access? slots function value with
    | some (other, access) => if other = slot then some access else none
    | none => none

def stores (slots : List Slot) (function : Function) (slot : Slot) (block : Block) : Bool :=
  (accessesIn slots function slot block).any (· ≠ .load)

def loadsFirst (slots : List Slot) (function : Function) (slot : Slot) (block : Block) : Bool :=
  (accessesIn slots function slot block).head? == some .load

end SsaLowering.Ssa
