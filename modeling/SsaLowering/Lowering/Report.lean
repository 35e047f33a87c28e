import SsaLowering.Diagnostic

/-!
# Reports

Faults of a body that lowering reports and then passes over: what is missing is replaced by an
undefined value, and control does not go on past it.
-/

namespace SsaLowering.Lowering

inductive ReportKind where
  | breakOutsideLoop
  | continueOutsideLoop
  | unboundIdentifier
  | missingReturn
  deriving DecidableEq, Repr

namespace ReportKind

def name : ReportKind → String
  | breakOutsideLoop => "BreakOutsideLoop"
  | continueOutsideLoop => "ContinueOutsideLoop"
  | unboundIdentifier => "UnboundIdentifier"
  | missingReturn => "MissingReturn"

def title : ReportKind → String
  | breakOutsideLoop => "break outside of a loop"
  | continueOutsideLoop => "continue outside of a loop"
  | unboundIdentifier => "unbound identifier"
  | missingReturn => "missing return value"

end ReportKind

structure Report where
  kind : ReportKind
  span : Span
  message : String
  deriving DecidableEq, Repr

def Report.toDiagnostic (report : Report) : Diagnostic :=
  { severity := .error, span := report.span, title := report.kind.title, message := report.message }

end SsaLowering.Lowering
