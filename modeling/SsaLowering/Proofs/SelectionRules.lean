import SsaLowering.Proofs.BodyRules
import SsaLowering.Proofs.Representation

/-!
# What lowering needs of a body

The rules under which each step of lowering finds what it needs: operators that are defined, values
where there have to be some, variables that may change. A value can be missing only where control
does not get to, and there any value will do, except for the scrutinee of a pattern that may fail.
-/

namespace SsaLowering.Proofs

open Lowering

/-- A value of one type can be converted to another. -/
def Convertible (env : Environment) (source target : Nat) : Prop :=
  source = target ∨ ∃ kind kind', env.kind? source = some kind ∧ env.kind? target = some kind' ∧
    (conversion? kind kind').isSome

/-- An error of one type can be returned as one of another. -/
def Propagatable (env : Environment) (source target : Nat) : Prop :=
  (Valued env source → Convertible env source target) ∧ (Valued env target → Valued env source)

/-- What has to hold wherever it stands in a body. In a strict body, control gets to every pattern
that may fail: none is in dead code or behind an arm that always matches, where it may do no harm. -/
def Selected (env : Environment) (ret : Nat) (strict : Bool) : Site → Prop
  | .literal ty value => Valued env ty → value ≠ .unit
  | .globalVar ty name => ∀ held, env.global? name = some held → Valued env ty → Valued env held
  | .binary op lhs rhs _ => (∃ kind, env.kind? lhs = some kind ∧
    ∀ left right, (selectBinary kind op left right).isSome) ∧ Valued env rhs
  | .unary op operand _ => ∃ kind, env.kind? operand = some kind ∧
    ∀ value, (selectUnary kind op value).isSome
  | .cast operand ty => Valued env operand ∧ Convertible env operand ty
  | .field base name => ∃ data, Core.dataOf? env.types base = some data ∧ (data.field? name).isSome
  | .data ty names => ∃ data, Core.dataOf? env.types ty = some data ∧
    names.length = data.fields.length ∧
    ∃ indices, names.mapM (fun name => (data.field? name).map Prod.fst) = some indices ∧
      indices.Nodup
  | .result _ _ ty => ∃ ok err, env.kind? ty = some (.result ok err)
  | .cond ty => Valued env ty
  | .value _ _ | .tail _ _ => True
  | .pattern .any _ _ => True
  | .pattern .result scrutinee reached =>
    (∃ ok err, Core.payloadsOf? env.types scrutinee = some (ok, err)) ∧ (strict → reached)
  | .pattern _ scrutinee reached => Valued env scrutinee ∧ (strict → reached)
  | .propagate operand _ => ∃ ok err retOk retErr, env.kind? operand = some (.result ok err) ∧
    env.kind? ret = some (.result retOk retErr) ∧ Propagatable env err retErr
  | .bind settled => settled = true
  | .init _ _ => True
  | .assign fixed _ _ => fixed = false
  | .ret _ => True
  | .malformed => False

/-- What has to hold where control gets to. -/
def Delivered (env : Environment) : Site → Prop
  | .value expected actual | .tail expected actual => Valued env expected → Valued env actual
  | .propagate operand ty => ∀ ok err, env.kind? operand = some (.result ok err) →
    Valued env ty → Valued env ok
  | _ => True

/-- The rules under which lowering succeeds. -/
def selection (env : Environment) (ret : Nat) (strict : Bool) : Rules where
  always := Selected env ret strict
  reached := Delivered env

@[simp] lemma selection_always (env : Environment) (ret : Nat) (strict : Bool) :
    (selection env ret strict).always = Selected env ret strict := rfl

@[simp] lemma selection_reached (env : Environment) (ret : Nat) (strict : Bool) :
    (selection env ret strict).reached = Delivered env := rfl

end SsaLowering.Proofs
