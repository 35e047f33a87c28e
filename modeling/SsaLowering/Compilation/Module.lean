import SsaLowering.Compilation.Item

/-!
# Lowering a module

All items are lowered first. Then they are gone through in order: reports are passed on, the budget
for them is checked, and functions, declarations and globals are put into the module. The first
error ends it.
-/

namespace SsaLowering.Compilation

open SsaLowering.Ir SsaLowering.Lowering SsaLowering.Source

def signBit : UInt64 :=
  0x8000000000000000

/-- The value of a global initializer: a literal, which may be negated. -/
def constantOf : LoadedExpr → Except InternalError Constant
  | ⟨_, _, _, .literal (.int value)⟩ => .ok (.int value)
  | ⟨_, _, _, .literal (.float bits)⟩ => .ok (.float bits)
  | ⟨_, _, _, .literal (.bool value)⟩ => .ok (.bool value)
  | ⟨_, _, _, .literal (.str text)⟩ => .ok (.str text)
  | ⟨_, _, _, .literal .unit⟩ => .ok .zero
  | ⟨_, span, _, .unary .neg operand⟩ => do
    match ← constantOf operand with
    | .int value => return .int (-value)
    | .float bits => return .float (bits ^^^ signBit)
    | _ => throw { span, cause := .negatedNonNumeric }
  | ⟨_, span, _, _⟩ => .error { span, cause := .nonConstantInitializer }

/-- Puts an item into a module, given the entry of its body if it has one. -/
def addItem (env : Environment) (module : Ir.Module) (item : LoadedItem)
    (entry : Option CacheEntry) : Except InternalError Ir.Module :=
  match item.kind, entry with
  | .function .., some entry =>
    .ok { module with functions := module.functions.push entry.function }
  | .function params ret _, none =>
    let tys := (params.map fun param => env.ty param.ty).filter (· ≠ .void)
    let declaration := Function.declaration item.name tys (env.ty ret) item.span item.node
    .ok { module with functions := module.functions.push declaration }
  | .global ty _ init, _ => do
    let value ← match init with
      | some init => constantOf init
      | none => pure .zero
    return { module with
      globals := module.globals.push { name := item.name, ty := env.ty ty, init := value } }

/-- What lowering a module has led to: the module or an error, the reports passed on, what was
noted in the log, and the cache. -/
structure ModuleOutcome where
  result : Except LowerError Ir.Module
  reports : List Report
  events : List Event
  cache : Option Cache

def ModuleOutcome.render (outcome : ModuleOutcome) (source : SourceText) :
    Except Fault String := do
  let reports ← Diagnostic.reportAll source (outcome.reports.map Report.toDiagnostic)
  match outcome.result with
  | .ok _ => return reports
  | .error error => return reports ++ (← error.toDiagnostic.report source)

/-- Whether the budget for reports is used up. Without reports it never is. -/
def exceeds (budget : Option Nat) (reported : Nat) : Bool :=
  match budget with
  | some limit => decide (0 < reported) && decide (limit ≤ reported)
  | none => false

/-- Goes through the items and what became of them; returns the result, all reports passed on and
what is noted. -/
def gather (env : Environment) (options : Options) (module : Ir.Module) (reports : List Report) :
    List (LoadedItem × ItemOutcome) → Except LowerError Ir.Module × List Report × List Event
  | [] => (.ok module, reports, [])
  | (item, outcome) :: rest =>
    match outcome.result with
    | .error error => (.error error, reports, [])
    | .ok entry =>
      let all := reports ++ (entry.map CacheEntry.reports).getD []
      if entry.isSome && exceeds options.maxReports all.length then
        (.error (.aborted all.length), all, [.budgetExhausted all.length])
      else
        match addItem env module item entry with
        | .error error => (.error (.internal error), all, [])
        | .ok module => gather env options module all rest

def lowerModule (digest : Digest) (program : Program) (options : Options) (cache : Option Cache) :
    ModuleOutcome :=
  let env := Environment.ofProgram digest program
  let (outcomes, cache) := lowerItems env options cache program.items
  let module : Ir.Module := { name := program.name, types := env.layouts }
  let (result, reports, events) := gather env options module [] (program.items.zip outcomes)
  { result, reports, events := outcomes.flatMap ItemOutcome.events ++ events, cache }

/-- Attaches a tag to all values of a function that come from a node; returns how many there are. -/
def tagNode (module : Ir.Module) (function node : Nat) (tag : Tag) :
    Except Fault (Nat × Ir.Module) := do
  let values := (← module.functions.fetch function).valuesForNode node
  let functions ← module.functions.alter function fun function =>
    values.foldl (fun function value => function.attachTag value tag) function
  return (values.length, { module with functions })

end SsaLowering.Compilation
