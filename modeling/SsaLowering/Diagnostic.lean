import SsaLowering.SourceText

/-!
# Diagnostics

A diagnostic is a titled message about a span. It is shown either on one line or as a report that
quotes the source line and underlines the span.
-/

namespace SsaLowering

inductive Severity where
  /-- A fault of the engine itself. -/
  | bug
  | note
  | error
  | warning
  deriving DecidableEq, Repr

namespace Severity

def label : Severity → String
  | bug => "error: internal compiler error"
  | note => "note"
  | error => "error"
  | warning => "warning"

end Severity

structure Diagnostic where
  severity : Severity
  span : Span
  title : String
  message : String
  deriving DecidableEq, Repr

namespace Diagnostic

def isError (diagnostic : Diagnostic) : Bool :=
  diagnostic.severity == .error || diagnostic.severity == .bug

def render (diagnostic : Diagnostic) : String :=
  diagnostic.severity.label ++ ": " ++ diagnostic.title ++ " at " ++ diagnostic.span.render ++ ": "
    ++ diagnostic.message

/-- A line without the line break, and any carriage returns, at its end. -/
def trimLineEnd (line : List Char) : List Char :=
  (line.reverse.dropWhile fun c => c == '\n' || c == '\r').reverse

/-- How many carets underline a span of `length` bytes from `column` on in a line of `width`
characters: no more than are left on the line, and at least one. -/
def caretCount (length width column : Nat) : Nat :=
  max (min length (width - (column - 1))) 1

/-- The underlining line without its message: a gutter, blanks up to the column, carets. -/
def underline (gutter : String) (column carets : Nat) : String :=
  gutter ++ " | " ++ String.ofList (List.replicate (column - 1) ' ')
    ++ String.ofList (List.replicate carets '^')

def reportAt (diagnostic : Diagnostic) (path : String) (location : SourceLocation) : String :=
  let line := trimLineEnd location.lineText.toList
  let number := toString location.line.toNat
  let column := location.column.toNat
  let gutter := String.ofList (List.replicate number.length ' ')
  let carets := caretCount diagnostic.span.length line.length column
  diagnostic.severity.label ++ ": " ++ diagnostic.title ++ "\n"
    ++ gutter ++ "--> " ++ path ++ ":" ++ number ++ ":" ++ toString column ++ "\n"
    ++ gutter ++ " |\n"
    ++ number ++ " | " ++ String.ofList line ++ "\n"
    ++ underline gutter column carets ++ " " ++ diagnostic.message ++ "\n"

/-- The report on a diagnostic, without a quotation if its span has no place in the source. -/
def report (source : SourceText) (diagnostic : Diagnostic) : Except Fault String := do
  match ← source.locate diagnostic.span with
  | some location => return diagnostic.reportAt source.path location
  | none =>
    return diagnostic.severity.label ++ ": " ++ diagnostic.title ++ "\n --> " ++ source.path ++ "\n "
      ++ diagnostic.message ++ "\n"

/-- The reports on all diagnostics, in the order of their spans; equal spans keep their order. -/
def reportAll (source : SourceText) (diagnostics : List Diagnostic) : Except Fault String :=
  String.join <$> (diagnostics.mergeSort fun a b => a.span.le b.span).mapM (report source)

end Diagnostic

end SsaLowering
