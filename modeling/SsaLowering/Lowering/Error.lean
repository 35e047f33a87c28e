import SsaLowering.Core.Inconsistency
import SsaLowering.Diagnostic
import SsaLowering.Ir.Verification

/-!
# Lowering errors

Why a module is not lowered.
-/

namespace SsaLowering.Lowering

inductive LowerError where
  | internal (error : InternalError)
  | malformed (function : String) (problem : Ir.Malformation)
  | aborted (reported : Nat)
  | fault (fault : Fault)
  deriving DecidableEq, Repr

namespace LowerError

def message : LowerError → String
  | internal error => "internal compiler error: " ++ error.cause.message
  | malformed function problem =>
    "internal compiler error: malformed IR for `" ++ function ++ "`: " ++ problem.message
  | aborted reported => s!"lowering aborted after {reported} diagnostics"
  | fault _ => "internal compiler error: the engine stopped"

def toDiagnostic : LowerError → Diagnostic
  | internal error =>
    { severity := .bug, span := error.span, title := "lowering failed"
      message := error.cause.message }
  | malformed function problem =>
    { severity := .bug, span := .zero, title := s!"malformed IR for `{function}`"
      message := problem.message }
  | aborted reported =>
    { severity := .error, span := .zero, title := "too many errors"
      message := s!"aborting after {reported} diagnostics" }
  | fault _ =>
    { severity := .bug, span := .zero, title := "lowering failed", message := "the engine stopped" }

end LowerError

end SsaLowering.Lowering
