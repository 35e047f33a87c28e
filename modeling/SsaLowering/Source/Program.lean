import SsaLowering.Source.Tree
import SsaLowering.Source.Types
import SsaLowering.Span

/-!
# Programs

A program is a tree that has been loaded: types are positions in its table of static types, spans
are valid, and nodes are numbered.
-/

namespace SsaLowering.Source

abbrev LoadedBlock := Block Nat Span Nat

abbrev LoadedStmt := Stmt Nat Span Nat

abbrev LoadedExpr := Expr Nat Span Nat

abbrev LoadedItem := Item Nat Span Nat

/-- A loaded program: types by number, nodes numbered. -/
structure Program where
  name : String
  types : TypeTable
  items : List LoadedItem

def Program.item? (program : Program) (name : String) : Option Nat :=
  program.items.findIdx? (·.name = name)

end SsaLowering.Source
