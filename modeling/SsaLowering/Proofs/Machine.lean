import SsaLowering.Proofs.Edits

/-!
# Running a function

A run of a function over an interpretation of what the engine leaves open: the words that a program
computes with, its memory, and what operators, calls and accesses do. A run goes from block to block;
within a block it goes from instruction to instruction, and on an edge all phis of the target change
at once. Some slots are cells of the run, known to nobody else; the others are in memory.
-/

namespace SsaLowering.Proofs

open Ir

variable {value : Value} {inst : Inst} {target : Block} {turn : Nat} {todo : List Value}

/-- What the engine leaves open. A step without a result ends the run: a division by zero, an
access to nothing, a call that does not come back. -/
structure Interpretation where
  Word : Type
  Memory : Type
  int : Int64 → Word
  float : UInt64 → Word
  bool : Bool → Word
  str : String → Word
  undef : Ty → Word
  truth : Word → Bool
  binary : BinaryOp → Ty → Word → Word → Option Word
  unary : UnaryOp → Ty → Word → Option Word
  icmp : IntPredicate → Word → Word → Option Word
  fcmp : FloatPredicate → Word → Word → Option Word
  cast : CastOp → Ty → Word → Option Word
  globalAddr : String → Word
  fieldPtr : Nat → Word → Nat → Option Word
  makeAgg : Nat → List Word → Option Word
  extractField : Ty → Word → Nat → Option Word
  alloca : Ty → Memory → Word × Memory
  new : Nat → Memory → Option (Word × Memory)
  load : Ty → Word → Memory → Option (Word × Memory)
  store : Word → Word → Memory → Option Memory
  call : Ty → String → List Word → Memory → Option (Word × Memory)

/-- What a run does to the world around it. -/
inductive Event (Word : Type) where
  | call (callee : String) (args : List Word)
  | new (agg : Nat)
  | load (address : Word)
  | store (address value : Word)

/-- How a run ends. -/
inductive Outcome (Word : Type) where
  | returned (value : Option Word)
  | unreachable
  /-- A step had no result. -/
  | trapped
  /-- The code is not a function in which every block ends in a terminator. -/
  | stuck

/-- How far a run has come: what was seen of it so far, and how it ended. -/
inductive Progress (ω ε μ : Type) where
  | running (trace : List ε)
  | ended (outcome : Outcome ω) (trace : List ε) (memory : μ)

/-- Registers, slots and memory, and what was done so far. -/
structure RunState (I : Interpretation) where
  regs : Value → I.Word
  cells : Value → I.Word
  memory : I.Memory
  trace : List (Event I.Word)

namespace RunState

variable {I : Interpretation}

def start (I : Interpretation) (memory : I.Memory) : RunState I where
  regs _ := I.undef .void
  cells _ := I.undef .void
  memory := memory
  trace := []

def setReg (state : RunState I) (value : Value) (word : I.Word) : RunState I :=
  { state with regs := Function.update state.regs value word }

def setCell (state : RunState I) (slot : Value) (word : I.Word) : RunState I :=
  { state with cells := Function.update state.cells slot word }

def log (state : RunState I) (event : Event I.Word) : RunState I :=
  { state with trace := state.trace ++ [event] }

/-- Goes on behind an instruction, or ends the run. -/
def proceed (state : RunState I) (value : Value) :
    List (Event I.Word) × Option (Option I.Word × I.Memory) → Except (RunState I) (RunState I)
  | (events, some (word, memory)) => .ok { state with
      regs := word.elim state.regs (Function.update state.regs value)
      memory, trace := state.trace ++ events }
  | (events, none) => .error { state with trace := state.trace ++ events }

end RunState

namespace Interpretation

variable (I : Interpretation)

/-- What an instruction that is no access, slot, phi or terminator makes of its operands. -/
def operate : Inst → List I.Word → I.Memory → Option (I.Word × I.Memory)
  | .iconst value, _, memory => some (I.int value, memory)
  | .fconst bits, _, memory => some (I.float bits, memory)
  | .bconst value, _, memory => some (I.bool value, memory)
  | .sconst text, _, memory => some (I.str text, memory)
  | .undef ty, _, memory => some (I.undef ty, memory)
  | .globalAddr name, _, memory => some (I.globalAddr name, memory)
  | .binary op ty _ _, [lhs, rhs], memory => (I.binary op ty lhs rhs).map (·, memory)
  | .unary op ty _, [operand], memory => (I.unary op ty operand).map (·, memory)
  | .icmp predicate _ _, [lhs, rhs], memory => (I.icmp predicate lhs rhs).map (·, memory)
  | .fcmp predicate _ _, [lhs, rhs], memory => (I.fcmp predicate lhs rhs).map (·, memory)
  | .cast op target _, [operand], memory => (I.cast op target operand).map (·, memory)
  | .fieldPtr agg _ position, [address], memory => (I.fieldPtr agg address position).map (·, memory)
  | .makeAgg agg _, fields, memory => (I.makeAgg agg fields).map (·, memory)
  | .extractField ty _ position, [aggregate], memory =>
    (I.extractField ty aggregate position).map (·, memory)
  | .new agg, _, memory => I.new agg memory
  | .call ty callee _, args, memory => I.call ty callee args memory
  | _, _, _ => none

/-- The event of an instruction on some operands. -/
def eventOf : Inst → List I.Word → Option (Event I.Word)
  | .new agg, _ => some (.new agg)
  | .call _ callee _, args => some (.call callee args)
  | _, _ => none

@[simp] lemma operate_mapOperands (f : Value → Value) (inst : Inst) (words : List I.Word)
    (memory : I.Memory) :
    I.operate (inst.mapOperands f) words memory = I.operate inst words memory := by
  cases inst <;> rcases words with _ | ⟨_, _ | ⟨_, _ | _⟩⟩ <;> rfl

/-- What an instruction does that is no terminator and touches no cell: what is seen of it and,
unless it ends the run, the word it computes, if any, and the memory after it. -/
def perform (args : List I.Word) : Inst → List I.Word → I.Memory →
    List (Event I.Word) × Option (Option I.Word × I.Memory)
  | .param ty position, _, memory => ([], some (some (args.getD position (I.undef ty)), memory))
  | .phi ty _, _, memory => ([], some (some (I.undef ty), memory))
  | .alloca ty _, _, memory => ([], some (some (I.alloca ty memory).1, (I.alloca ty memory).2))
  | .load ty _, [address], memory =>
    ([.load address], (I.load ty address memory).map fun result => (some result.1, result.2))
  | .store _ _, [address, stored], memory =>
    ([.store address stored], (I.store address stored memory).map (none, ·))
  | inst, words, memory =>
    ((I.eventOf inst words).toList,
      (I.operate inst words memory).map fun result => (some result.1, result.2))

@[simp] lemma eventOf_mapOperands (f : Value → Value) (inst : Inst) (words : List I.Word) :
    I.eventOf (inst.mapOperands f) words = I.eventOf inst words := by
  cases inst <;> rfl

@[simp] lemma perform_mapOperands (f : Value → Value) (args : List I.Word) (inst : Inst)
    (words : List I.Word) (memory : I.Memory) :
    I.perform args (inst.mapOperands f) words memory = I.perform args inst words memory := by
  cases inst <;> rcases words with _ | ⟨_, _ | ⟨_, _ | _⟩⟩ <;> rfl

end Interpretation

/-- A function, its arguments, and which of its slots are cells. -/
structure Machine (I : Interpretation) where
  function : Function
  isCell : Value → Bool
  args : List I.Word

/-- How a block ends: in an edge, told from others between the same blocks by its turn, or with
the run. -/
inductive BlockEnd (I : Interpretation) where
  | goto (target : Block) (turn : Nat) (state : RunState I)
  | halt (outcome : Outcome I.Word) (state : RunState I)

/-- The arguments of a phi for the edges from one block, in the order of the edges. -/
def incoming (preds : List Block) (args : List Value) (source : Block) : List Value :=
  ((preds.zip args).filter (·.1 = source)).map Prod.snd

namespace Machine

variable {I : Interpretation} (M : Machine I) {state state' : RunState I}

def finish (state : RunState I) (value : Value) :
    Option (I.Word × I.Memory) → Except (RunState I) (RunState I)
  | some (word, memory) => .ok { state.setReg value word with memory }
  | none => .error state

/-- Executes an instruction that is no terminator. A phi that is not entered through an edge is
undefined. -/
def exec (value : Value) (inst : Inst) (state : RunState I) : Except (RunState I) (RunState I) :=
  match inst with
  | .param ty position => .ok (state.setReg value (M.args.getD position (I.undef ty)))
  | .phi ty _ => .ok (state.setReg value (I.undef ty))
  | .alloca ty _ =>
    if M.isCell value then .ok (state.setCell value (I.undef ty))
    else finish state value (some (I.alloca ty state.memory))
  | .load ty address =>
    if M.isCell address then .ok (state.setReg value (state.cells address))
    else
      finish (state.log (.load (state.regs address))) value
        (I.load ty (state.regs address) state.memory)
  | .store address stored =>
    if M.isCell address then .ok (state.setCell address (state.regs stored))
    else
      let logged := state.log (.store (state.regs address) (state.regs stored))
      match I.store (state.regs address) (state.regs stored) state.memory with
      | some memory => .ok { logged with memory }
      | none => .error logged
  | inst =>
    let words := inst.operands.map state.regs
    let logged := { state with trace := state.trace ++ (I.eventOf inst words).toList }
    finish logged value (I.operate inst words state.memory)

/-- Where a terminator goes. Of two edges to one target, the turn tells which was taken. -/
def leave (state : RunState I) : Inst → BlockEnd I
  | .br target => .goto target 0 state
  | .condBr condition thenBlock elseBlock =>
    if I.truth (state.regs condition) then .goto thenBlock 0 state
    else .goto elseBlock (if thenBlock = elseBlock then 1 else 0) state
  | .ret value => .halt (.returned (value.map state.regs)) state
  | .unreachable => .halt .unreachable state
  | _ => .halt .stuck state

/-- Executes the instructions of a block from some point on. -/
def runInsts : List Value → RunState I → BlockEnd I
  | [], state => .halt .stuck state
  | value :: rest, state =>
    match M.function.inst? value with
    | none => .halt .stuck state
    | some inst =>
      if inst.isTerminator then leave state inst
      else
        match M.exec value inst state with
        | .ok state => runInsts rest state
        | .error state => .halt .trapped state

def phiWord (source : Block) (turn : Nat) (target : Block) (state : RunState I) (phi : Value) :
    I.Word :=
  match M.function.inst? phi with
  | some (.phi ty args) =>
    ((incoming (M.function.preds target) args source)[turn]?).elim (I.undef ty) state.regs
  | _ => state.regs phi

/-- The phis of a block take their words all at once. -/
def enter (source : Block) (turn : Nat) (target : Block) (state : RunState I) : RunState I :=
  { state with
    regs := fun value =>
      if value ∈ M.function.phis target then M.phiWord source turn target state value
      else state.regs value }

/-- Runs from a point of a block to the end of the block, and on through `fuel` more blocks. -/
def runFrom : Nat → Block → List Value → RunState I → Progress I.Word (Event I.Word) I.Memory
  | 0, _, todo, state =>
    match M.runInsts todo state with
    | .halt outcome state => .ended outcome state.trace state.memory
    | .goto _ _ state => .running state.trace
  | fuel + 1, block, todo, state =>
    match M.runInsts todo state with
    | .halt outcome state => .ended outcome state.trace state.memory
    | .goto target turn state =>
      runFrom fuel target (M.function.afterPhis target) (M.enter block turn target state)

/-- Runs a function through its entry and `fuel` more blocks. -/
def run (memory : I.Memory) (fuel : Nat) : Progress I.Word (Event I.Word) I.Memory :=
  match M.function.entry? with
  | none => .ended .stuck [] memory
  | some entry => M.runFrom fuel entry (M.function.insts entry) (.start I memory)

/-- Whether an instruction makes or accesses a cell. -/
def touchesCell (value : Value) : Inst → Bool
  | .alloca .. => M.isCell value
  | .load _ address => M.isCell address
  | .store address _ => M.isCell address
  | _ => false

/-- Executing an instruction that touches no cell: all it depends on are its operands, the
arguments and memory. -/
lemma exec_eq_proceed (h : M.touchesCell value inst = false) (state : RunState I) :
    M.exec value inst state =
      state.proceed value (I.perform M.args inst (inst.operands.map state.regs) state.memory) := by
  cases inst with
  | alloca ty pinned =>
    simp only [touchesCell] at h
    simp [exec, h, Interpretation.perform, RunState.proceed, finish, RunState.setReg]
  | load ty address =>
    simp only [touchesCell] at h
    simp only [exec, h, Bool.false_eq_true, if_false, Interpretation.perform, Inst.operands,
      List.map_cons, List.map_nil]
    cases I.load ty (state.regs address) state.memory <;> rfl
  | store address stored =>
    simp only [touchesCell] at h
    simp only [exec, h, Bool.false_eq_true, if_false, Interpretation.perform, Inst.operands,
      List.map_cons, List.map_nil]
    cases I.store (state.regs address) (state.regs stored) state.memory <;> rfl
  | param | phi =>
    simp [exec, Interpretation.perform, RunState.proceed, RunState.setReg]
  | _ =>
    simp only [exec, Interpretation.perform, RunState.proceed]
    cases I.operate _ _ state.memory <;> rfl

lemma runInsts_cons_exec (rest : List Value) (state : RunState I)
    (h : M.function.inst? value = some inst) (ht : inst.isTerminator = false) :
    M.runInsts (value :: rest) state =
      match M.exec value inst state with
      | .ok state => M.runInsts rest state
      | .error state => .halt .trapped state := by
  simp [runInsts, h, ht]

lemma runInsts_cons_leave (rest : List Value) (state : RunState I)
    (h : M.function.inst? value = some inst) (ht : inst.isTerminator = true) :
    M.runInsts (value :: rest) state = leave state inst := by
  simp [runInsts, h, ht]

/-- An edge that is taken is one of the terminator's. -/
lemma leave_goto (h : leave state inst = .goto target turn state') :
    turn < inst.successors.count target ∧ state' = state := by
  cases inst with
  | br t =>
    obtain ⟨rfl, rfl, rfl⟩ := h
    simp [Inst.successors]
  | condBr c t e =>
    simp only [leave] at h
    split at h
    · simp only [BlockEnd.goto.injEq] at h
      obtain ⟨rfl, rfl, rfl⟩ := h
      simp [Inst.successors]
    · simp only [BlockEnd.goto.injEq] at h
      obtain ⟨rfl, rfl, rfl⟩ := h
      by_cases hte : t = e <;> simp [Inst.successors, hte]
  | _ => simp [leave] at h

lemma runFrom_congr {todo' : List Value} (h : M.runInsts todo state = M.runInsts todo' state')
    (fuel : Nat) (block : Block) :
    M.runFrom fuel block todo state = M.runFrom fuel block todo' state' := by
  cases fuel <;> simp only [runFrom, h]

lemma runFrom_halt {outcome : Outcome I.Word} (h : M.runInsts todo state = .halt outcome state')
    (fuel : Nat) (block : Block) :
    M.runFrom fuel block todo state = .ended outcome state'.trace state'.memory := by
  cases fuel <;> simp [runFrom, h]

lemma runFrom_goto_zero (h : M.runInsts todo state = .goto target turn state') (block : Block) :
    M.runFrom 0 block todo state = .running state'.trace := by
  simp [runFrom, h]

lemma runFrom_goto_succ (h : M.runInsts todo state = .goto target turn state') (fuel : Nat)
    (block : Block) : M.runFrom (fuel + 1) block todo state =
      M.runFrom fuel target (M.function.afterPhis target) (M.enter block turn target state') := by
  simp [runFrom, h]

end Machine

end SsaLowering.Proofs
