import SsaLowering.Lowering.Report
import SsaLowering.Ssa.Construction

/-!
# Events

What a run notes in its log, in the order in which it happens.
-/

namespace SsaLowering.Compilation

open SsaLowering.Lowering

inductive Level where
  | debug
  | trace
  deriving DecidableEq, Repr

def Level.label : Level → String
  | debug => "DEBUG"
  | trace => "TRACE"

inductive Event where
  | reported (function : String) (report : Report)
  | constructed (function : String) (stats : Ssa.Stats)
  | reused (function : String)
  | budgetExhausted (reported : Nat)
  | cacheLoaded (entries : Nat)
  | cacheIgnored (path cause : String)
  | cacheUsed (hits misses entries : Nat)
  deriving DecidableEq, Repr

namespace Event

def level : Event → Level
  | reported .. => .trace
  | reused .. => .trace
  | _ => .debug

def message : Event → String
  | reported function report =>
    function ++ ": " ++ report.kind.name ++ " at " ++ report.span.render ++ ": " ++ report.message
  | constructed function stats =>
    s!"ssa `{function}`: pruned {stats.prunedBlocks} blocks, " ++
      s!"promoted {stats.promotedSlots} slots, placed {stats.phis} phis"
  | reused function => s!"`{function}`: reusing cached lowering"
  | budgetExhausted count => s!"diagnostics budget exhausted after {count} reports"
  | cacheLoaded entries => s!"loaded {entries} cached functions"
  | cacheIgnored path cause => s!"ignoring cache {path}: {cause}"
  | cacheUsed hits misses entries => s!"cache: {hits} hits, {misses} misses, {entries} entries"

def render (event : Event) : String :=
  "[" ++ event.level.label ++ "] " ++ event.message

end Event

end SsaLowering.Compilation
