import SsaLowering.Core.Desugaring
import SsaLowering.Proofs.Machine

/-!
# Evaluation of bodies

What a body means, in core form and as it is written. Evaluation goes from left to right over an
algebra of what the engine leaves open: words, memory, and what operators, calls and accesses do and
what is seen of them. A local holds a word, or nothing if its type has no values. A loop takes a
bounded number of turns; a body that needs more is still running.
-/

namespace SsaLowering.Proofs

open Source (Literal TypeTable LoadedBlock LoadedStmt LoadedExpr)
open SsaLowering.Core (Local)

/-- What an operation does to memory: what is seen of it and, unless it ends the run, its result. -/
abbrev Action (ε μ α : Type) :=
  μ → List ε × Option (α × μ)

/-- What evaluation leaves open. Static types are given by their numbers. -/
structure Algebra where
  Word : Type
  Memory : Type
  Event : Type
  literal : Literal → Option Word
  truth : Word → Bool
  /-- What a local holds that is declared without a value, given what it held before. -/
  unset : Option Word → Option Word
  binary : Core.BinaryOp → Nat → Word → Word → Action Event Memory Word
  unary : Source.UnaryOp → Nat → Word → Action Event Memory Word
  cast : Nat → Nat → Word → Action Event Memory Word
  call : Nat → String → List (Option Word) → Action Event Memory (Option Word)
  readGlobal : Nat → String → Action Event Memory (Option Word)
  writeGlobal : String → Word → Action Event Memory Unit
  new : Nat → Action Event Memory Word
  readField : Nat → Nat → Word → Nat → Action Event Memory (Option Word)
  writeField : Nat → Word → Nat → Word → Action Event Memory Unit
  makeResult : Nat → Bool → Option Word → Action Event Memory Word
  /-- Whether a result is an error, or is none. -/
  isResult : Bool → Word → Action Event Memory Bool
  payload : Nat → Bool → Word → Action Event Memory (Option Word)
  /-- The result to return early with, given a failed one, its type and the type to return. -/
  residual : Nat → Nat → Word → Action Event Memory Word
  equals : Literal → Word → Action Event Memory Bool

/-- Why evaluation does not go on with what follows. -/
inductive Exit (ω : Type) where
  | breakLoop
  | continueLoop
  | ret (value : Option ω)
  | stop (outcome : Outcome ω)
  /-- A loop took all the turns it was given. -/
  | timeout

/-- The state of evaluation, with variables named by `V`. -/
structure EvalState (A : Algebra) (V : Type) where
  vars : V → Option A.Word
  memory : A.Memory
  trace : List A.Event

/-- Evaluation, which may be left by a jump, by a return or for good. -/
abbrev Eval (A : Algebra) (V : Type) :=
  EStateM (Exit A.Word) (EvalState A V)

namespace Eval

variable {A : Algebra} {V α : Type}

/-- An action on the memory, with its events; without a result, evaluation stops. -/
def act (action : Action A.Event A.Memory α) : Eval A V α := fun st =>
  match action st.memory with
  | (events, some (result, memory)) => .ok result { st with memory, trace := st.trace ++ events }
  | (events, none) => .error (.stop .trapped) { st with trace := st.trace ++ events }

/-- The word that an operand has to have. -/
def need : Option A.Word → Eval A V A.Word
  | some word => pure word
  | none => throw (.stop .stuck)

@[simp]
lemma need_some (word : A.Word) : (need (some word) : Eval A V A.Word) = pure word :=
  rfl

@[simp]
lemma throw_bind {β : Type} (exit : Exit A.Word) (f : α → Eval A V β) :
    (throw exit >>= f : Eval A V β) = throw exit :=
  rfl

def read (var : V) : Eval A V (Option A.Word) :=
  return (← get).vars var

def write [DecidableEq V] (var : V) (value : Option A.Word) : Eval A V Unit :=
  modify fun st => { st with vars := Function.update st.vars var value }

def leaveUnset [DecidableEq V] (var : V) : Eval A V Unit :=
  modify fun st => { st with vars := Function.update st.vars var (A.unset (st.vars var)) }

/-- Takes one turn of a loop; tells whether the loop goes on. -/
def turn (body : Eval A V Unit) : Eval A V Bool := fun st =>
  match body st with
  | .ok _ st => .ok true st
  | .error .continueLoop st => .ok true st
  | .error .breakLoop st => .ok false st
  | .error exit st => .error exit st

/-- Takes turns of a loop as long as its condition holds. The condition and the step are not part of
the turn that `break` and `continue` end. -/
def iterate (cond : Eval A V Bool) (body step : Eval A V Unit) : Nat → Eval A V Unit
  | 0 => throw .timeout
  | turns + 1 => do
    if ← cond then
      if ← turn body then
        step
        iterate cond body step turns

/-- What a whole body comes to. A jump out of no loop is none. -/
def progress (body : Eval A V (Option A.Word)) (start : EvalState A V) :
    Progress A.Word A.Event A.Memory :=
  match body start with
  | .ok value st => .ended (.returned value) st.trace st.memory
  | .error (.ret value) st => .ended (.returned value) st.trace st.memory
  | .error (.stop outcome) st => .ended outcome st.trace st.memory
  | .error .timeout st => .running st.trace
  | .error .breakLoop st | .error .continueLoop st => .ended .stuck st.trace st.memory

/-- Control does not come back from a call of type `never`. -/
def returning (ty : Nat) (value : Option A.Word) : Eval A V (Option A.Word) :=
  if ty = TypeTable.never then throw (.stop .unreachable) else pure value

/-- What `?` does with a result of type `ty`: an error is returned. -/
def propagate (A : Algebra) (ty ret : Nat) (result : A.Word) : Eval A V (Option A.Word) := do
  if ← act (A.isResult true result) then
    throw (.ret (some (← act (A.residual ty ret result))))
  else act (A.payload ty false result)

/-- Tests which result a value is, and binds its payload if the pattern has a variable for it. -/
def matchResult [DecidableEq V] (A : Algebra) (ty : Nat) (isErr : Bool) (value : Option A.Word)
    (var : Option V) : Eval A V Bool := do
  let result ← need value
  if ← act (A.isResult isErr result) then
    var.forM fun var => do write var (← act (A.payload ty isErr result))
    return true
  else return false

end Eval

open Eval

/-! ### Core bodies -/

/-- Tests whether a value matches a pattern, and binds its variable if it does. -/
def matchPattern (A : Algebra) (ty : Nat) (value : Option A.Word) :
    Core.Pattern → Eval A Local Bool
  | .wildcard => pure true
  | .bind var => do
    write var value
    return true
  | .int expected => do act (A.equals (.int expected) (← need value))
  | .bool expected => do act (A.equals (.bool expected) (← need value))
  | .ok var => matchResult A ty false value var
  | .err var => matchResult A ty true value var

mutual

/-- Evaluates a block. `ret` is the type that the function returns. -/
def evalBlock (A : Algebra) (turns ret : Nat) : Core.Block → Eval A Local (Option A.Word)
  | ⟨_, _, stmts, tail⟩ => do
    evalStmts A turns ret stmts
    match tail with
    | none => return none
    | some tail => evalExpr A turns ret tail

def evalStmts (A : Algebra) (turns ret : Nat) : List Core.Stmt → Eval A Local Unit
  | [] => pure ()
  | stmt :: rest => do
    evalStmt A turns ret stmt
    evalStmts A turns ret rest

/-- Evaluates a statement of a core body. Loops make at most `turns` turns. -/
def evalStmt (A : Algebra) (turns ret : Nat) : Core.Stmt → Eval A Local Unit
  | ⟨_, _, .letVar var none⟩ => leaveUnset var
  | ⟨_, _, .letVar var (some init)⟩ => do write var (← evalExpr A turns ret init)
  | ⟨_, _, .assign (.localVar var) value⟩ => do write var (← evalExpr A turns ret value)
  | ⟨_, _, .assign (.globalVar name) value⟩ => do
    (← evalExpr A turns ret value).forM fun word => act (A.writeGlobal name word)
  | ⟨_, _, .assign (.field base index) value⟩ => do
    let record ← need (← evalExpr A turns ret base)
    (← evalExpr A turns ret value).forM fun word => act (A.writeField base.ty record index word)
  | ⟨_, _, .expr value⟩ => discard (evalExpr A turns ret value)
  | ⟨_, _, .ret none⟩ => throw (.ret none)
  | ⟨_, _, .ret (some value)⟩ => do throw (.ret (← evalExpr A turns ret value))
  | ⟨_, _, .breakLoop⟩ => throw .breakLoop
  | ⟨_, _, .continueLoop⟩ => throw .continueLoop
  | ⟨_, _, .loop cond body step⟩ =>
    iterate
      (match cond with
        | none => pure true
        | some cond => do return A.truth (← need (← evalExpr A turns ret cond)))
      (discard (evalBlock A turns ret body))
      (match step with
        | none => pure ()
        | some step => discard (evalBlock A turns ret step))
      turns

/-- Evaluates an expression from left to right; not every type has a word. -/
def evalExpr (A : Algebra) (turns ret : Nat) : Core.Expr → Eval A Local (Option A.Word)
  | ⟨_, _, _, .literal value⟩ => pure (A.literal value)
  | ⟨_, _, _, .localVar var⟩ => read var
  | ⟨_, _, ty, .globalVar name⟩ => act (A.readGlobal ty name)
  | ⟨_, _, _, .binary op lhs rhs⟩ => do
    let left ← need (← evalExpr A turns ret lhs)
    let right ← need (← evalExpr A turns ret rhs)
    return some (← act (A.binary op lhs.ty left right))
  | ⟨_, _, _, .unary op operand⟩ => do
    let word ← need (← evalExpr A turns ret operand)
    return some (← act (A.unary op operand.ty word))
  | ⟨_, _, ty, .cast operand⟩ => do
    let word ← need (← evalExpr A turns ret operand)
    return some (← act (A.cast operand.ty ty word))
  | ⟨_, _, ty, .call callee args⟩ => do
    let values ← evalArgs A turns ret args
    returning ty (← act (A.call ty callee values))
  | ⟨_, _, ty, .field base index⟩ => do
    let record ← need (← evalExpr A turns ret base)
    act (A.readField base.ty ty record index)
  | ⟨_, _, ty, .data inits⟩ => do
    let record ← act (A.new ty)
    evalInits A turns ret ty record inits
    return some record
  | ⟨_, _, ty, .ok value⟩ => do
    return some (← act (A.makeResult ty false (← evalExpr A turns ret value)))
  | ⟨_, _, ty, .err value⟩ => do
    return some (← act (A.makeResult ty true (← evalExpr A turns ret value)))
  | ⟨_, _, _, .ifElse cond body otherwise⟩ => do
    if A.truth (← need (← evalExpr A turns ret cond)) then evalBlock A turns ret body
    else evalBlock A turns ret otherwise
  | ⟨_, _, _, .matchOn scrutinee arms⟩ => do
    let value ← evalExpr A turns ret scrutinee
    evalArms A turns ret scrutinee.ty value arms
  | ⟨_, _, _, .block body⟩ => evalBlock A turns ret body
  | ⟨_, _, _, .propagate value⟩ => do
    let result ← need (← evalExpr A turns ret value)
    propagate A value.ty ret result

def evalArgs (A : Algebra) (turns ret : Nat) : List Core.Expr → Eval A Local (List (Option A.Word))
  | [] => pure []
  | arg :: rest => do
    let value ← evalExpr A turns ret arg
    return value :: (← evalArgs A turns ret rest)

/-- Evaluates the values of a data initializer and stores them into the new record. -/
def evalInits (A : Algebra) (turns ret ty : Nat) (record : A.Word) :
    List Core.FieldInit → Eval A Local Unit
  | [] => pure ()
  | ⟨index, value⟩ :: rest => do
    (← evalExpr A turns ret value).forM fun word => act (A.writeField ty record index word)
    evalInits A turns ret ty record rest

/-- Evaluates the first arm that matches a value. -/
def evalArms (A : Algebra) (turns ret ty : Nat) (value : Option A.Word) :
    List Core.Arm → Eval A Local (Option A.Word)
  | [] => throw (.stop .unreachable)
  | ⟨pattern, body, _⟩ :: rest => do
    if ← matchPattern A ty value pattern then evalExpr A turns ret body
    else evalArms A turns ret ty value rest

end

def bindParams {A : Algebra} {V : Type} [DecidableEq V] (params : List V)
    (args : List (Option A.Word)) : Eval A V Unit :=
  (params.zip args).forM fun (param, arg) => write param arg

/-- Evaluates a body for some arguments, one for each parameter. -/
def evalBody (A : Algebra) (vars : Local → Option A.Word) (body : Core.Body)
    (args : List (Option A.Word)) (memory : A.Memory) (turns : Nat) :
    Progress A.Word A.Event A.Memory :=
  progress (do
    bindParams body.params args
    evalBlock A turns body.ret body.block) { vars, memory, trace := [] }

/-! ### Source bodies

Variables are the bindings of the source, each of which is one cell. -/

def fieldAt {A : Algebra} {V : Type} (types : TypeTable) (ty : Nat) (name : String) :
    Eval A V Nat :=
  match (Core.dataOf? types ty).bind (·.field? name) with
  | some (index, _) => pure index
  | none => throw (.stop .stuck)

/-- What an assignment goes to, once it is known which record it is a field of. -/
inductive Spot (ω : Type) where
  | localVar (binding : Nat)
  | globalVar (name : String)
  | field (recordTy : Nat) (record : ω) (index : Nat)

namespace Spot

variable {A : Algebra}

def read (ty : Nat) : Spot A.Word → Eval A Nat (Option A.Word)
  | localVar binding => Eval.read binding
  | globalVar name => act (A.readGlobal ty name)
  | field recordTy record index => act (A.readField recordTy ty record index)

def write (value : Option A.Word) : Spot A.Word → Eval A Nat Unit
  | localVar binding => Eval.write binding value
  | globalVar name => value.forM fun word => act (A.writeGlobal name word)
  | field recordTy record index =>
    value.forM fun word => act (A.writeField recordTy record index word)

end Spot

def matchSourcePattern (A : Algebra) (ty : Nat) (value : Option A.Word) :
    Source.Pattern → Eval A Nat Bool
  | .wildcard => pure true
  | .bind var => do
    write var.binding value
    return true
  | .int expected => do act (A.equals (.int expected) (← need value))
  | .bool expected => do act (A.equals (.bool expected) (← need value))
  | .ok var => matchResult A ty false value (var.map (·.binding))
  | .err var => matchResult A ty true value (var.map (·.binding))

def applyOp {A : Algebra} {V : Type} (op : Source.BinaryOp) (ty : Nat) (left : A.Word)
    (right : Option A.Word) : Eval A V (Option A.Word) := do
  let right ← need right
  match Core.BinaryOp.ofSource? op with
  | some op => return some (← act (A.binary op ty left right))
  | none => throw (.stop .stuck)

/-- The loop over a range whose first element is in `binding`: the bound is known, and the counter
steps by one also after `continue`. -/
def countTo {A : Algebra} (turns binding : Nat) (inclusive : Bool) (bound : Option A.Word)
    (body : Eval A Nat Unit) : Eval A Nat Unit :=
  iterate
    (do
      let counter ← need (← read binding)
      let limit ← need bound
      let op := if inclusive then .le else .lt
      return A.truth (← act (A.binary op TypeTable.int counter limit)))
    body
    (do
      let counter ← need (← read binding)
      let one ← need (A.literal (.int 1))
      write binding (some (← act (A.binary .add TypeTable.int counter one))))
    turns

mutual

/-- Evaluates a block of the source. `ret` is the type that the function returns. -/
def evalSourceBlock (A : Algebra) (types : TypeTable) (turns ret : Nat) :
    LoadedBlock → Eval A Nat (Option A.Word)
  | ⟨_, _, stmts, tail⟩ => do
    evalSourceStmts A types turns ret stmts
    match tail with
    | none => return none
    | some tail => evalSourceExpr A types turns ret tail

def evalSourceStmts (A : Algebra) (types : TypeTable) (turns ret : Nat) :
    List LoadedStmt → Eval A Nat Unit
  | [] => pure ()
  | stmt :: rest => do
    evalSourceStmt A types turns ret stmt
    evalSourceStmts A types turns ret rest

def evalSourceStmt (A : Algebra) (types : TypeTable) (turns ret : Nat) :
    LoadedStmt → Eval A Nat Unit
  | ⟨_, _, .letVar binding _ _ _ _ none⟩ => leaveUnset binding
  | ⟨_, _, .letVar binding _ _ _ _ (some init)⟩ => do
    write binding (← evalSourceExpr A types turns ret init)
  | ⟨_, _, .assign target none value⟩ => do
    let spot ← evalSourcePlace A types turns ret target
    spot.write (← evalSourceExpr A types turns ret value)
  -- the place is found once, read before the operand is evaluated and written after it
  | ⟨_, _, .assign target (some op) value⟩ => do
    let spot ← evalSourcePlace A types turns ret target
    let current ← need (← spot.read target.ty)
    let value ← evalSourceExpr A types turns ret value
    spot.write (← applyOp op target.ty current value)
  | ⟨_, _, .expr value⟩ => discard (evalSourceExpr A types turns ret value)
  | ⟨_, _, .ret none⟩ => throw (.ret none)
  | ⟨_, _, .ret (some value)⟩ => do throw (.ret (← evalSourceExpr A types turns ret value))
  | ⟨_, _, .ifElse cond body otherwise⟩ => do
    if A.truth (← need (← evalSourceExpr A types turns ret cond)) then
      discard (evalSourceBlock A types turns ret body)
    else evalSourceElse A types turns ret otherwise
  | ⟨_, _, .whileLoop cond body⟩ =>
    iterate (do return A.truth (← need (← evalSourceExpr A types turns ret cond)))
      (discard (evalSourceBlock A types turns ret body)) (pure ()) turns
  | ⟨_, _, .loop body⟩ =>
    iterate (pure true) (discard (evalSourceBlock A types turns ret body)) (pure ()) turns
  | ⟨_, _, .forRange binding _ first last inclusive body⟩ => do
    write binding (← evalSourceExpr A types turns ret first)
    let bound ← evalSourceExpr A types turns ret last
    countTo turns binding inclusive bound (discard (evalSourceBlock A types turns ret body))
  | ⟨_, _, .breakLoop⟩ => throw .breakLoop
  | ⟨_, _, .continueLoop⟩ => throw .continueLoop

def evalSourceElse (A : Algebra) (types : TypeTable) (turns ret : Nat) :
    Option (Source.Else Nat Span Nat) → Eval A Nat Unit
  | none => pure ()
  | some (.block body) => discard (evalSourceBlock A types turns ret body)
  | some (.chain stmt) => evalSourceStmt A types turns ret stmt

/-- Finds out what an assignment goes to. -/
def evalSourcePlace (A : Algebra) (types : TypeTable) (turns ret : Nat) :
    LoadedExpr → Eval A Nat (Spot A.Word)
  | ⟨_, _, _, .localVar binding _⟩ => pure (.localVar binding)
  | ⟨_, _, _, .globalVar name⟩ => pure (.globalVar name)
  | ⟨_, _, _, .field base name⟩ => do
    let record ← need (← evalSourceExpr A types turns ret base)
    return .field base.ty record (← fieldAt types base.ty name)
  | _ => throw (.stop .stuck)

/-- Evaluates an expression of the source, on its bindings. -/
def evalSourceExpr (A : Algebra) (types : TypeTable) (turns ret : Nat) :
    LoadedExpr → Eval A Nat (Option A.Word)
  | ⟨_, _, _, .literal value⟩ => pure (A.literal value)
  | ⟨_, _, _, .localVar binding _⟩ => read binding
  | ⟨_, _, ty, .globalVar name⟩ => act (A.readGlobal ty name)
  | ⟨_, _, _, .binary .and lhs rhs⟩ => do
    if A.truth (← need (← evalSourceExpr A types turns ret lhs)) then
      evalSourceExpr A types turns ret rhs
    else return A.literal (.bool false)
  | ⟨_, _, _, .binary .or lhs rhs⟩ => do
    if A.truth (← need (← evalSourceExpr A types turns ret lhs)) then
      return A.literal (.bool true)
    else evalSourceExpr A types turns ret rhs
  | ⟨_, _, _, .binary op lhs rhs⟩ => do
    let left ← need (← evalSourceExpr A types turns ret lhs)
    let right ← evalSourceExpr A types turns ret rhs
    applyOp op lhs.ty left right
  | ⟨_, _, _, .unary op operand⟩ => do
    let word ← need (← evalSourceExpr A types turns ret operand)
    return some (← act (A.unary op operand.ty word))
  | ⟨_, _, ty, .cast operand⟩ => do
    let word ← need (← evalSourceExpr A types turns ret operand)
    return some (← act (A.cast operand.ty ty word))
  | ⟨_, _, ty, .call callee args⟩ => do
    let values ← evalSourceArgs A types turns ret args
    returning ty (← act (A.call ty callee values))
  | ⟨_, _, ty, .field base name⟩ => do
    let record ← need (← evalSourceExpr A types turns ret base)
    act (A.readField base.ty ty record (← fieldAt types base.ty name))
  | ⟨_, _, ty, .data inits⟩ => do
    let record ← act (A.new ty)
    evalSourceInits A types turns ret ty record inits
    return some record
  | ⟨_, _, ty, .ok value⟩ => do
    return some (← act (A.makeResult ty false (← evalSourceExpr A types turns ret value)))
  | ⟨_, _, ty, .err value⟩ => do
    return some (← act (A.makeResult ty true (← evalSourceExpr A types turns ret value)))
  | ⟨_, _, _, .ifElse cond body otherwise⟩ => do
    if A.truth (← need (← evalSourceExpr A types turns ret cond)) then
      evalSourceBlock A types turns ret body
    else
      match otherwise with
      | none => return none
      | some other => evalSourceExpr A types turns ret other
  | ⟨_, _, _, .matchOn scrutinee arms⟩ => do
    let value ← evalSourceExpr A types turns ret scrutinee
    evalSourceArms A types turns ret scrutinee.ty value arms
  | ⟨_, _, _, .block body⟩ => evalSourceBlock A types turns ret body
  | ⟨_, _, _, .propagate value⟩ => do
    let result ← need (← evalSourceExpr A types turns ret value)
    propagate A value.ty ret result

def evalSourceArgs (A : Algebra) (types : TypeTable) (turns ret : Nat) :
    List LoadedExpr → Eval A Nat (List (Option A.Word))
  | [] => pure []
  | arg :: rest => do
    let value ← evalSourceExpr A types turns ret arg
    return value :: (← evalSourceArgs A types turns ret rest)

def evalSourceInits (A : Algebra) (types : TypeTable) (turns ret ty : Nat) (record : A.Word) :
    List (Source.FieldInit Nat Span Nat) → Eval A Nat Unit
  | [] => pure ()
  | ⟨name, value⟩ :: rest => do
    let index ← fieldAt types ty name
    (← evalSourceExpr A types turns ret value).forM fun word =>
      act (A.writeField ty record index word)
    evalSourceInits A types turns ret ty record rest

def evalSourceArms (A : Algebra) (types : TypeTable) (turns ret ty : Nat)
    (value : Option A.Word) : List (Source.Arm Nat Span Nat) → Eval A Nat (Option A.Word)
  | [] => throw (.stop .unreachable)
  | ⟨pattern, body, _⟩ :: rest => do
    if ← matchSourcePattern A ty value pattern then evalSourceExpr A types turns ret body
    else evalSourceArms A types turns ret ty value rest

end

/-- Evaluates a function of the source for some arguments, one for each parameter. -/
def evalSourceFunction (A : Algebra) (types : TypeTable) (vars : Nat → Option A.Word)
    (params : List (Source.Param Nat Span)) (ret : Nat) (block : LoadedBlock)
    (args : List (Option A.Word)) (memory : A.Memory) (turns : Nat) :
    Progress A.Word A.Event A.Memory :=
  progress (do
    bindParams (params.map (·.binding)) args
    evalSourceBlock A types turns ret block) { vars, memory, trace := [] }

end SsaLowering.Proofs
