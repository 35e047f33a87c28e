import SsaLowering.Core.Stamp
import SsaLowering.Ir.Layout

/-!
# Environments

What lowering a body needs to know of its program: how values of each static type are
represented, the layouts of data and result types and the types of the globals. It also has what
stamps are made with, the digest and the fingerprint.
-/

namespace SsaLowering.Lowering

open SsaLowering.Ir SsaLowering.Source

/-- What lowering knows of a program besides the body at hand. -/
structure Environment where
  types : TypeTable
  layouts : LayoutTable
  /-- The type that represents each static type. -/
  representations : SideTable Ty
  /-- The layout of each static type that has one. -/
  aggregates : SideTable (Option Nat)
  globals : List (String × Nat)
  digest : Digest
  fingerprint : Stamp

namespace Environment

structure Draft where
  layouts : LayoutTable := .empty
  representations : SideTable Ty := { fallback := .void }
  aggregates : SideTable (Option Nat) := { fallback := none }

def typeName (types : TypeTable) (id : Nat) : String :=
  match types.render id with
  | .ok name => name
  | .error _ => "data"

/-- Represents a type. The payloads of a result come before it in the table; the fields of a data
type are filled in later, so that data types may refer to each other. -/
def represent (types : TypeTable) (draft : Draft) (entry : Nat × StaticType) : Draft :=
  let (id, ty) := entry
  let plain (ty : Ty) : Draft :=
    { draft with representations := draft.representations.set id ty }
  match ty with
  | .unit => plain .void
  | .never => plain .void
  | .bool => plain .i1
  | .int => plain .i64
  | .float => plain .f64
  | .str => plain .ptr
  | .data _ =>
    let (agg, layouts) := draft.layouts.intern (.data (typeName types id) [])
    { layouts
      representations := draft.representations.set id .ptr
      aggregates := draft.aggregates.set id (some agg) }
  | .result ok err =>
    let (agg, layouts) := draft.layouts.intern
      (.result (typeName types id) (draft.representations.get ok) (draft.representations.get err))
    { layouts
      representations := draft.representations.set id (.agg agg)
      aggregates := draft.aggregates.set id (some agg) }

def fillFields (types : TypeTable) (draft : Draft) (entry : Nat × StaticType) : Draft :=
  match entry.2, draft.aggregates.get entry.1 with
  | .data id, some agg =>
    let fields := ((types.data? id).map DataType.fields).getD []
    { draft with
      layouts := draft.layouts.setFields agg
        (fields.map fun (_, ty) => draft.representations.get ty) }
  | _, _ => draft

def globalType? (item : LoadedItem) : Option (String × Nat) :=
  match item.kind with
  | .global ty _ _ => some (item.name, ty)
  | .function .. => none

def ofProgram (digest : Digest) (program : Program) : Environment :=
  let types := program.types
  let entries := Arena.entries types.types
  let draft := entries.foldl (fillFields types) (entries.foldl (represent types) {})
  { types
    layouts := draft.layouts
    representations := draft.representations
    aggregates := draft.aggregates
    globals := program.items.filterMap globalType?
    digest
    fingerprint := Core.fingerprint digest program }

def ty (env : Environment) (id : Nat) : Ty :=
  env.representations.get id

def agg? (env : Environment) (id : Nat) : Option Nat :=
  env.aggregates.get id

def kind? (env : Environment) (id : Nat) : Option StaticType :=
  env.types.get? id

def global? (env : Environment) (name : String) : Option Nat :=
  env.globals.lookup name

def nameOf (env : Environment) (id : Nat) : String :=
  typeName env.types id

end Environment

end SsaLowering.Lowering
