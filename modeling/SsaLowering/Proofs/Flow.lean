import Mathlib.Tactic.Tauto
import SsaLowering.Lowering.Body

/-!
# Flow

What a piece of a body lets control do, read off its syntax: get behind it, leave the loop around
it, or go on with the next turn of that loop.
-/

namespace SsaLowering.Proofs

open Lowering

/-! ### Flow -/

/-- What control can do from the start of a piece of code. -/
structure Flow where
  /-- Get to its end. -/
  behind : Bool
  /-- Leave the loop around it. -/
  exits : Bool
  /-- Go on with the next turn of the loop around it. -/
  nexts : Bool
  deriving DecidableEq, Repr

namespace Flow

/-- Control gets to the end. -/
def pass : Flow :=
  ⟨true, false, false⟩

/-- Control gets nowhere. -/
def stop : Flow :=
  ⟨false, false, false⟩

/-- One piece of code after another. -/
def andThen (f g : Flow) : Flow :=
  ⟨f.behind && g.behind, f.exits || f.behind && g.exits, f.nexts || f.behind && g.nexts⟩

/-- One of two pieces of code. -/
def orElse (f g : Flow) : Flow :=
  ⟨f.behind || g.behind, f.exits || g.exits, f.nexts || g.nexts⟩

/-- Whether a turn of a loop is followed by its step. -/
def again (cond : Option Flow) (body : Flow) : Bool :=
  (cond.getD pass).behind && (body.behind || body.nexts)

/-- A loop. Jumps in its condition and its step are out of it, those in its body are not. -/
def loop (cond : Option Flow) (body : Flow) (step : Option Flow) : Flow :=
  let head := cond.getD pass
  let tail := step.getD pass
  ⟨head.behind && (cond.isSome || body.exits), head.exits || again cond body && tail.exits,
    head.nexts || again cond body && tail.nexts⟩

/-- Whether jumps in a piece of code go to a block, inside some loops. -/
def leadsTo (f : Flow) (loops : List LoopTargets) (t : Ir.Block) : Bool :=
  match loops with
  | [] => false
  | l :: _ => f.exits && decide (t = l.exit) || f.nexts && decide (t = l.next)

@[simp] lemma behind_pass : pass.behind = true := rfl

@[simp] lemma behind_stop : stop.behind = false := rfl

@[simp] lemma behind_andThen (f g : Flow) : (f.andThen g).behind = (f.behind && g.behind) := rfl

@[simp] lemma behind_orElse (f g : Flow) : (f.orElse g).behind = (f.behind || g.behind) := rfl

@[simp] lemma pass_andThen (f : Flow) : pass.andThen f = f := by
  simp [andThen, pass]

@[simp] lemma andThen_pass (f : Flow) : f.andThen pass = f := by
  simp [andThen, pass]

lemma andThen_assoc (f g h : Flow) : (f.andThen g).andThen h = f.andThen (g.andThen h) := by
  simp [andThen, Bool.and_assoc, Bool.or_assoc, Bool.and_or_distrib_left]

lemma orElse_comm (f g : Flow) : f.orElse g = g.orElse f := by
  simp [orElse, Bool.or_comm]

variable (loops : List LoopTargets) (t : Ir.Block)

@[simp] lemma leadsTo_pass : pass.leadsTo loops t = false := by
  cases loops <;> rfl

@[simp] lemma leadsTo_stop : stop.leadsTo loops t = false := by
  cases loops <;> rfl

@[simp] lemma leadsTo_andThen (f g : Flow) :
    (f.andThen g).leadsTo loops t = (f.leadsTo loops t || f.behind && g.leadsTo loops t) := by
  cases loops with
  | nil => simp [leadsTo]
  | cons l loops =>
    rw [Bool.eq_iff_iff]
    simp only [leadsTo, andThen, Bool.or_eq_true, Bool.and_eq_true]
    tauto

@[simp] lemma leadsTo_orElse (f g : Flow) :
    (f.orElse g).leadsTo loops t = (f.leadsTo loops t || g.leadsTo loops t) := by
  cases loops with
  | nil => rfl
  | cons l loops =>
    rw [Bool.eq_iff_iff]
    simp only [leadsTo, orElse, Bool.or_eq_true, Bool.and_eq_true]
    tauto

lemma leadsTo_loop (cond : Option Flow) (body : Flow) (step : Option Flow) :
    (loop cond body step).leadsTo loops t = ((cond.getD pass).leadsTo loops t ||
      again cond body && (step.getD pass).leadsTo loops t) := by
  cases loops with
  | nil => simp [leadsTo]
  | cons l loops =>
    rw [Bool.eq_iff_iff]
    simp only [leadsTo, loop, Bool.or_eq_true, Bool.and_eq_true]
    tauto

end Flow

/-! ### The flow of core bodies -/

mutual

def flowOfBlock : Core.Block → Flow
  | ⟨_, _, stmts, none⟩ => flowOfStmts stmts
  | ⟨_, _, stmts, some tail⟩ => (flowOfStmts stmts).andThen (flowOfExpr tail)

def flowOfStmts : List Core.Stmt → Flow
  | [] => .pass
  | stmt :: rest => (flowOfStmt stmt).andThen (flowOfStmts rest)

def flowOfStmt : Core.Stmt → Flow
  | ⟨_, _, .letVar _ none⟩ => .pass
  | ⟨_, _, .letVar _ (some init)⟩ => flowOfExpr init
  | ⟨_, _, .assign (.localVar _) value⟩ | ⟨_, _, .assign (.globalVar _) value⟩ => flowOfExpr value
  | ⟨_, _, .assign (.field base _) value⟩ => (flowOfExpr base).andThen (flowOfExpr value)
  | ⟨_, _, .expr value⟩ => flowOfExpr value
  | ⟨_, _, .ret none⟩ => .stop
  | ⟨_, _, .ret (some value)⟩ => (flowOfExpr value).andThen .stop
  | ⟨_, _, .breakLoop⟩ => ⟨false, true, false⟩
  | ⟨_, _, .continueLoop⟩ => ⟨false, false, true⟩
  | ⟨_, _, .loop none body none⟩ => .loop none (flowOfBlock body) none
  | ⟨_, _, .loop none body (some step)⟩ => .loop none (flowOfBlock body) (some (flowOfBlock step))
  | ⟨_, _, .loop (some cond) body none⟩ => .loop (some (flowOfExpr cond)) (flowOfBlock body) none
  | ⟨_, _, .loop (some cond) body (some step)⟩ =>
    .loop (some (flowOfExpr cond)) (flowOfBlock body) (some (flowOfBlock step))

/-- Where control goes from an expression, as its form tells. -/
def flowOfExpr : Core.Expr → Flow
  | ⟨_, _, _, .literal _⟩ | ⟨_, _, _, .localVar _⟩ | ⟨_, _, _, .globalVar _⟩ => .pass
  | ⟨_, _, _, .binary _ lhs rhs⟩ => (flowOfExpr lhs).andThen (flowOfExpr rhs)
  | ⟨_, _, _, .unary _ operand⟩ | ⟨_, _, _, .cast operand⟩ => flowOfExpr operand
  -- control does not come back from a call of type `never`
  | ⟨_, _, ty, .call _ args⟩ =>
    (flowOfArgs args).andThen (if ty = Source.TypeTable.never then .stop else .pass)
  | ⟨_, _, _, .field base _⟩ => flowOfExpr base
  | ⟨_, _, _, .data inits⟩ => flowOfInits inits
  | ⟨_, _, _, .ok value⟩ | ⟨_, _, _, .err value⟩ => flowOfExpr value
  | ⟨_, _, _, .ifElse cond body otherwise⟩ =>
    (flowOfExpr cond).andThen ((flowOfBlock body).orElse (flowOfBlock otherwise))
  | ⟨_, _, _, .matchOn scrutinee arms⟩ => (flowOfExpr scrutinee).andThen (flowOfArms arms)
  | ⟨_, _, _, .block body⟩ => flowOfBlock body
  | ⟨_, _, _, .propagate value⟩ => flowOfExpr value

def flowOfArgs : List Core.Expr → Flow
  | [] => .pass
  | arg :: rest => (flowOfExpr arg).andThen (flowOfArgs rest)

def flowOfInits : List Core.FieldInit → Flow
  | [] => .pass
  | ⟨_, value⟩ :: rest => (flowOfExpr value).andThen (flowOfInits rest)

/-- The arms behind one that always matches are never tried. -/
def flowOfArms : List Core.Arm → Flow
  | [] => .stop
  | ⟨pattern, body, _⟩ :: rest =>
    if pattern.isIrrefutable then flowOfExpr body else (flowOfExpr body).orElse (flowOfArms rest)

end

end SsaLowering.Proofs
