import SsaLowering.Arena

/-!
# Static types

A table interns the static types of a module: result types by structure, data types by
declaration. A type is named by its position in the table; the six primitive types come first.
-/

namespace SsaLowering.Source

/-- A static type; other types and data types are named by their positions. -/
inductive StaticType where
  | unit | bool | int | float | str | never
  | data (id : Nat)
  | result (ok err : Nat)
  deriving DecidableEq, Repr

structure DataType where
  name : String
  fields : List (String × Nat) := []
  deriving DecidableEq, Repr

/-- The place and type of the first field of a name. -/
def DataType.field? (data : DataType) (name : String) : Option (Nat × Nat) := do
  let place ← data.fields.findIdx? (·.1 = name)
  let (_, ty) ← data.fields[place]?
  return (place, ty)

/-- The static types of a program, each with one number. -/
structure TypeTable where
  types : Arena StaticType
  datas : Arena DataType
  deriving DecidableEq, Repr

namespace TypeTable

def unit : Nat := 0

def bool : Nat := 1

def int : Nat := 2

def float : Nat := 3

def str : Nat := 4

/-- The type of expressions that give no value. -/
def never : Nat := 5

def initial : TypeTable where
  types := #[.unit, .bool, .int, .float, .str, .never]
  datas := #[]

/-- The position of a type, which is added if it is new. -/
def intern (table : TypeTable) (ty : StaticType) : Nat × TypeTable :=
  match table.types.toList.findIdx? (· = ty) with
  | some id => (id, table)
  | none =>
    let (id, types) := table.types.add ty
    (id, { table with types })

def result (table : TypeTable) (ok err : Nat) : Nat × TypeTable :=
  table.intern (.result ok err)

/-- Declares a data type, so far without fields; returns its position among the types. -/
def declareData (table : TypeTable) (name : String) : Nat × TypeTable :=
  let (id, datas) := table.datas.add { name }
  intern { table with datas } (.data id)

def defineData (table : TypeTable) (id : Nat) (fields : List (String × Nat)) : TypeTable :=
  { table with datas := table.datas.modify id fun data => { data with fields } }

def get? (table : TypeTable) (id : Nat) : Option StaticType :=
  table.types[id]?

def data? (table : TypeTable) (id : Nat) : Option DataType :=
  table.datas[id]?

def size (table : TypeTable) : Nat :=
  table.types.size

/-- Whether a type has no values at run time. -/
def isValueless (table : TypeTable) (id : Nat) : Bool :=
  match table.get? id with
  | some .unit => true
  | some .never => true
  | _ => false

/-- The name of a type in messages, to some depth of nesting. -/
def renderTo (table : TypeTable) : Nat → Nat → Except Fault String
  | 0, _ => .ok ""
  | depth + 1, id =>
    match table.get? id with
    | none => .ok s!"\x7bunknown ty{id}\x7d"
    | some .unit => .ok "()"
    | some .bool => .ok "Bool"
    | some .int => .ok "Int"
    | some .float => .ok "Float"
    | some .str => .ok "Str"
    | some .never => .ok "!"
    | some (.data data) =>
      match table.data? data with
      | some def_ => .ok def_.name
      | none => .error .missing
    | some (.result ok err) => do
      return "Result<" ++ (← table.renderTo depth ok) ++ ", "
        ++ (← table.renderTo depth err) ++ ">"

def render (table : TypeTable) (id : Nat) : Except Fault String :=
  table.renderTo (table.size + 1) id

end TypeTable

end SsaLowering.Source
