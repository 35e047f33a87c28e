import SsaLowering.Proofs.DesugaredRules
import SsaLowering.Proofs.Representation

/-!
# Typing rules

What it means that the type annotations of a body are consistent: where control gets to, each
expression has the type that is expected of it. Nothing is asked of the arguments of calls and of the
values of fields, and a branch or function without a value may end in any.
-/

namespace SsaLowering.Proofs

open SsaLowering.Lowering
open SsaLowering.Source (TypeTable)

/-- The type of a literal. -/
def literalType : Source.Literal → Nat
  | .int _ => TypeTable.int
  | .float _ => TypeTable.float
  | .bool _ => TypeTable.bool
  | .str _ => TypeTable.str
  | .unit => TypeTable.unit

/-- Whether an operator compares its operands. -/
def compares : Core.BinaryOp → Bool
  | .eq | .ne | .lt | .le | .gt | .ge => true
  | _ => false

/-- The type of the value of an operator. -/
def operatorType (op : Core.BinaryOp) (operand : Nat) : Nat :=
  if compares op then TypeTable.bool else operand

/-- The types at a site agree, in a function that returns a value of type `ret`. -/
def Consistent (env : Environment) (ret : Nat) : Site → Prop
  | .literal ty value => ty = literalType value
  | .globalVar ty name => ∀ held, env.global? name = some held → ty = held
  | .binary op lhs rhs ty => rhs = lhs ∧ ty = operatorType op lhs
  | .unary _ operand ty => ty = operand
  | .result isErr payload ty => ∀ ok err, env.kind? ty = some (.result ok err) →
    payload = if isErr then err else ok
  | .cond ty => ty = TypeTable.bool
  | .value expected actual => Valued env expected → actual = expected
  | .tail expected actual => actual = expected
  | .pattern .int scrutinee _ => scrutinee = TypeTable.int
  | .pattern .bool scrutinee _ => scrutinee = TypeTable.bool
  | .propagate operand ty => ∀ ok err, env.kind? operand = some (.result ok err) → ty = ok
  | .init expected actual | .assign _ expected actual => actual = expected
  | .ret (some actual) => Valued env ret → actual = ret
  | _ => True

/-- The rules for bodies whose annotations are consistent. -/
def typing (env : Environment) (ret : Nat) : Rules where
  always _ := True
  reached := Consistent env ret

@[simp] lemma typing_always (env : Environment) (ret : Nat) :
    (typing env ret).always = fun _ => True := rfl

@[simp] lemma typing_reached (env : Environment) (ret : Nat) :
    (typing env ret).reached = Consistent env ret := rfl

/-- The core form of a body keeps to the rules if the body does. -/
lemma typing_lawful {env : Environment} (henv : Faithful env) (ret : Nat) :
    (typing env ret).Lawful where
  literal_bool _ _ := ⟨trivial, fun _ => rfl⟩
  literal_int _ _ := ⟨trivial, fun _ => rfl⟩
  compare _ op hop := by
    refine ⟨trivial, fun _ => ⟨rfl, ?_⟩⟩
    rcases hop with rfl | rfl <;> rfl
  add _ := ⟨trivial, fun _ => ⟨rfl, rfl⟩⟩
  cond_bool _ := ⟨trivial, fun _ => rfl⟩
  value_unit _ _ := ⟨trivial, fun _ hvalued => absurd henv.ty_unit hvalued⟩
  value_tail _ a b c h h' := by
    refine ⟨trivial, fun hreached hvalued => ?_⟩
    calc
      c = b := h'.2 hreached
      _ = a := h.2 hreached hvalued
  tail_unit _ := ⟨trivial, fun _ => rfl⟩
  bind_true := trivial
  init_refl _ _ := ⟨trivial, fun _ => rfl⟩
  assign _ _ _ _ := trivial
  assign_refl _ _ := rfl

end SsaLowering.Proofs
