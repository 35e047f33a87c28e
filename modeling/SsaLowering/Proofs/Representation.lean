import SsaLowering.Core.Desugaring
import SsaLowering.Proofs.Environments
import SsaLowering.Proofs.LoadedTypes

/-!
# How static types are represented

The environment of a loaded program represents each static type by the type of its values, and the
layouts of results hold their payloads.
-/

namespace SsaLowering.Proofs

open Ir Lowering Source

/-- A static type is represented as its kind says. -/
def Fits (env : Environment) (id : Nat) : StaticType → Prop
  | .unit | .never => env.ty id = .void
  | .bool => env.ty id = .i1
  | .int => env.ty id = .i64
  | .float => env.ty id = .f64
  | .str => env.ty id = .ptr
  | .data _ => env.ty id = .ptr ∧ ∃ agg name fields, env.agg? id = some agg ∧
    env.layouts.get? agg = some (.data name fields)
  | .result ok err => ∃ agg name, env.ty id = .agg agg ∧ env.agg? id = some agg ∧
    env.layouts.get? agg = some (.result name (env.ty ok) (env.ty err))

/-- An environment represents every static type, and the primitive types are where they should be. -/
structure Faithful (env : Environment) : Prop where
  fits : ∀ id kind, env.kind? id = some kind → Fits env id kind
  primitives : ∀ id kind, TypeTable.initial.get? id = some kind → env.kind? id = some kind

/-- A static type has values at run time. -/
def Valued (env : Environment) (ty : Nat) : Prop :=
  env.ty ty ≠ .void

instance (env : Environment) (ty : Nat) : Decidable (Valued env ty) :=
  inferInstanceAs (Decidable (env.ty ty ≠ .void))

lemma ofProgram_faithful (digest : Digest) {prog : Program} (h : Regular prog.types) :
    Faithful (.ofProgram digest prog) where
  fits id kind hkind := by
    obtain ⟨before, hfilled⟩ := filledIn prog.types
    have hrep := hfilled.represents id kind hkind
    cases kind with
    | unit | never | bool | int | float | str => exact hrep.1
    | data data =>
      obtain ⟨hty, agg, fields, hagg, hlayout⟩ := hrep
      exact ⟨hty, agg, _, fields, hagg, hlayout⟩
    | result ok err =>
      obtain ⟨agg, okTy, errTy, hty, hagg, hlayout, hok, herr⟩ := hrep
      obtain ⟨hlt, hlt'⟩ := h.payloads id ok err hkind
      rw [hok hlt, herr hlt'] at hlayout
      exact ⟨agg, _, hty, hagg, hlayout⟩
  primitives := h.primitives

namespace Faithful

variable {env : Environment} (h : Faithful env)

include h

lemma ty_unit : env.ty TypeTable.unit = .void :=
  h.fits _ _ (h.primitives TypeTable.unit .unit rfl)

lemma ty_bool : env.ty TypeTable.bool = .i1 :=
  h.fits _ _ (h.primitives TypeTable.bool .bool rfl)

lemma ty_int : env.ty TypeTable.int = .i64 :=
  h.fits _ _ (h.primitives TypeTable.int .int rfl)

lemma ty_float : env.ty TypeTable.float = .f64 :=
  h.fits _ _ (h.primitives TypeTable.float .float rfl)

lemma ty_str : env.ty TypeTable.str = .ptr :=
  h.fits _ _ (h.primitives TypeTable.str .str rfl)

lemma data {ty : Nat} {data : DataType} (hdata : Core.dataOf? env.types ty = some data) :
    env.ty ty = .ptr ∧ ∃ agg name fields, env.agg? ty = some agg ∧
      env.layouts.get? agg = some (.data name fields) := by
  rw [Core.dataOf?] at hdata
  split at hdata
  · next id hkind => exact h.fits ty (.data id) hkind
  · cases hdata

lemma result {ty ok err : Nat} (hkind : env.kind? ty = some (.result ok err)) :
    ∃ agg name, env.ty ty = .agg agg ∧ env.agg? ty = some agg ∧
      env.layouts.get? agg = some (.result name (env.ty ok) (env.ty err)) :=
  h.fits ty _ hkind

lemma valued_of_result {ty ok err : Nat} (hkind : env.kind? ty = some (.result ok err)) :
    Valued env ty := by
  obtain ⟨agg, -, hty, -⟩ := h.result hkind
  rw [Valued, hty]
  nofun

end Faithful

lemma kind?_of_payloadsOf? {env : Environment} {ty ok err : Nat}
    (h : Core.payloadsOf? env.types ty = some (ok, err)) :
    env.kind? ty = some (.result ok err) := by
  rw [Core.payloadsOf?] at h
  split at h
  · next ok' err' hkind =>
    cases h
    exact hkind
  · cases h

end SsaLowering.Proofs
