import SsaLowering.Arena

/-!
# Types and aggregate layouts

The types of intermediate values, and the table of aggregate layouts that aggregate types refer
to. Interning a layout twice gives the same number. The table keeps, beside the layouts, an index
from layout to number; replacing the fields of a layout moves its index entry.
-/

namespace SsaLowering.Ir

inductive Ty where
  /-- No value: stores, terminators, calls without a result, unit payloads. -/
  | void
  | i1
  | i64
  | f64
  /-- Strings, stack slots and records on the heap. -/
  | ptr
  /-- An aggregate passed by value, by its number in the layout table. -/
  | agg (id : Nat)
  deriving DecidableEq, Repr, Inhabited

namespace Ty

def aggName (id : Nat) : String :=
  "agg" ++ toString id

def render : Ty → String
  | void => "void"
  | i1 => "i1"
  | i64 => "i64"
  | f64 => "f64"
  | ptr => "ptr"
  | agg id => aggName id

end Ty

inductive LayoutKind where
  /-- A record, always reached through a pointer. -/
  | data
  /-- A success or failure, with the fields tag, success, failure. -/
  | result
  deriving DecidableEq, Repr

namespace LayoutKind

def name : LayoutKind → String
  | data => "data"
  | result => "result"

end LayoutKind

structure Layout where
  name : String
  kind : LayoutKind
  fields : List Ty
  deriving DecidableEq, Repr

namespace Layout

def tagField : Nat := 0

def okField : Nat := 1

def errField : Nat := 2

def result (name : String) (ok err : Ty) : Layout :=
  ⟨name, .result, [.i1, ok, err]⟩

def data (name : String) (fields : List Ty) : Layout :=
  ⟨name, .data, fields⟩

/-- The types of the fields that hold a value: what an aggregate is built from. -/
def valueFields (layout : Layout) : List Ty :=
  layout.fields.filter (· ≠ .void)

def render (layout : Layout) : String :=
  layout.kind.name ++ " " ++ layout.name ++ " \x7b "
    ++ String.intercalate ", " (layout.fields.map Ty.render) ++ " \x7d"

end Layout

/-- Layouts with their numbers, and an index from layouts to numbers. -/
structure LayoutTable where
  layouts : Arena Layout := #[]
  /-- The number that interning a layout gives, for the layouts known to the index. -/
  index : List (Layout × Nat) := []
  deriving Repr

namespace LayoutTable

def empty : LayoutTable := {}

instance : Inhabited LayoutTable :=
  ⟨empty⟩

def find? (table : LayoutTable) (layout : Layout) : Option Nat :=
  table.index.lookup layout

/-- The number of a layout, which is added if the index does not know it. -/
def intern (table : LayoutTable) (layout : Layout) : Nat × LayoutTable :=
  match table.find? layout with
  | some id => (id, table)
  | none =>
    let id := table.layouts.size
    (id, { layouts := table.layouts.push layout, index := (layout, id) :: table.index })

/-- Replaces the fields of a layout, so that a record may refer to itself. -/
def setFields (table : LayoutTable) (id : Nat) (fields : List Ty) : LayoutTable :=
  match table.layouts[id]? with
  | none => table
  | some layout =>
    let changed := { layout with fields }
    { layouts := table.layouts.setIfInBounds id changed
      index := (changed, id) ::
        (table.index.filter fun entry => entry.1 ≠ layout && entry.1 ≠ changed) }

def get? (table : LayoutTable) (id : Nat) : Option Layout :=
  table.layouts[id]?

def field? (table : LayoutTable) (id position : Nat) : Option Ty := do
  (← table.get? id).fields[position]?

def size (table : LayoutTable) : Nat :=
  table.layouts.size

def ofList (layouts : List Layout) : LayoutTable :=
  layouts.foldl (fun table layout => (table.intern layout).2) empty

def same (a b : LayoutTable) : Bool :=
  a.layouts == b.layouts && a.index.length == b.index.length
    && a.index.all fun entry => b.find? entry.1 == some entry.2

end LayoutTable

end SsaLowering.Ir
