import SsaLowering.Core.Body
import SsaLowering.Ir.Inst

/-!
# Scopes

Which locals are visible at a point of a body, and how each is held. Leaving a scope hides the
locals that were bound in it.
-/

namespace SsaLowering.Lowering

open SsaLowering.Core (Local)

inductive Binding where
  /-- As a value, which never changes. -/
  | value (value : Ir.Value)
  /-- In a stack slot. -/
  | slot (address : Ir.Value) (ty : Ir.Ty)
  /-- Not at all, because its type has no values. -/
  | unit
  deriving DecidableEq, Repr

def Binding.render : Binding → String
  | value held => held.render
  | slot address ty => "slot " ++ ty.render ++ " " ++ address.render
  | unit => "unit"

/-- The visible locals; a frame holds those bound in one scope, the innermost scope first. -/
structure ScopeStack where
  frames : List (List Local) := []
  bindings : SideTable (Option Binding) := { fallback := none }

namespace ScopeStack

def push (scopes : ScopeStack) : ScopeStack :=
  { scopes with frames := [] :: scopes.frames }

/-- Leaves the innermost scope and hides the locals bound in it. -/
def pop (scopes : ScopeStack) : ScopeStack :=
  match scopes.frames with
  | [] => scopes
  | frame :: frames =>
    { frames, bindings := frame.foldl (fun table var => table.set var.id none) scopes.bindings }

/-- Binds a local in the innermost scope; outside of all scopes it stays bound. -/
def bind (scopes : ScopeStack) (var : Local) (binding : Binding) : ScopeStack :=
  { frames := match scopes.frames with
      | [] => []
      | frame :: frames => (var :: frame) :: frames
    bindings := scopes.bindings.set var.id (some binding) }

/-- How a local is held, if it is visible. -/
def lookup (scopes : ScopeStack) (var : Local) : Option Binding :=
  scopes.bindings.get var.id

def depth (scopes : ScopeStack) : Nat :=
  scopes.frames.length

@[simp] theorem depth_push (scopes : ScopeStack) : scopes.push.depth = scopes.depth + 1 := rfl

@[simp] theorem depth_bind (scopes : ScopeStack) (var : Local) (binding : Binding) :
    (scopes.bind var binding).depth = scopes.depth := by
  unfold bind depth
  cases scopes.frames <;> rfl

theorem lookup_bind_self (scopes : ScopeStack) (var : Local) (binding : Binding) :
    (scopes.bind var binding).lookup var = some binding := by
  simp [bind, lookup]

end ScopeStack

end SsaLowering.Lowering
