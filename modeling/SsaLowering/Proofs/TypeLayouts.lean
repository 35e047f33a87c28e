import SsaLowering.Proofs.ReadingBack
import SsaLowering.Proofs.Representation

/-!
# The layouts of static types

Each result type of a loaded program has a layout of its tag and payloads, and each data type has a
layout of its own with its fields in the order in which they are declared. The fields are filled in
when all types are represented, so data types may refer to themselves and to each other.
-/

namespace SsaLowering.Proofs

open Ir Lowering Source
open Lowering.Environment

/-! ### Names -/

section Names

variable {types : TypeTable} {id data : Nat} {decl : DataType}

lemma typeName_data (hget : types.get? id = some (.data data)) (hdecl : types.data? data = some decl) :
    typeName types id = decl.name := by
  rw [typeName, TypeTable.render, TypeTable.renderTo, hget]
  dsimp only
  rw [hdecl]

lemma Regular.declared (h : Regular types) (hget : types.get? id = some (.data data)) :
    ∃ decl, types.data? data = some decl :=
  ⟨_, Array.getElem?_eq_getElem ((h.datas data).mpr ⟨id, hget⟩)⟩

lemma Regular.uniquelyNamed (h : Regular types) (hget : types.get? id = some (.data data)) :
    UniquelyNamed types id := by
  intro other data' hother hname
  obtain ⟨decl, hdecl⟩ := h.declared hget
  obtain ⟨decl', hdecl'⟩ := h.declared hother
  rw [typeName_data hget hdecl, typeName_data hother hdecl'] at hname
  obtain rfl := h.names data' data decl' decl hdecl' hdecl hname
  exact h.distinct other id _ hother hget

end Names

/-! ### Layouts -/

/-- The layout of a data type has its declared fields in order. -/
structure DataLayout (env : Environment) (id : Nat) (decl : DataType) (agg : Nat) : Prop where
  ty_eq : env.ty id = .ptr
  agg_eq : env.agg? id = some agg
  layout_eq : env.layouts.get? agg = some (.data decl.name (decl.fields.map fun field => env.ty field.2))

variable {digest : Digest} {program : Program} {id data : Nat}

lemma DataLayout.inj (h : Regular program.types) {other data' agg : Nat} {decl decl' : DataType}
    (hget : program.types.get? id = some (.data data)) (hdecl : program.types.data? data = some decl)
    (hget' : program.types.get? other = some (.data data'))
    (hdecl' : program.types.data? data' = some decl')
    (hd : DataLayout (ofProgram digest program) id decl agg)
    (hd' : DataLayout (ofProgram digest program) other decl' agg) : other = id := by
  have hname : decl'.name = decl.name :=
    congrArg Layout.name (Option.some.inj (hd'.layout_eq.symm.trans hd.layout_eq))
  refine h.uniquelyNamed hget other data' hget' ?_
  rw [typeName_data hget hdecl, typeName_data hget' hdecl', hname]

end SsaLowering.Proofs
