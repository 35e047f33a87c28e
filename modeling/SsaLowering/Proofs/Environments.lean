import SsaLowering.Lowering.Environment
import SsaLowering.Proofs.Layouts
import Mathlib.Order.Basic
import Mathlib.Order.Nat

/-!
# Environments of programs

What the two passes over the static types of a program leave behind. Representing goes through the
types in order; filling in the fields of data types then changes nothing but these fields. The
layouts are indexed throughout.
-/

namespace SsaLowering.Proofs

open Ir Lowering Source
open Lowering.Environment

/-- A fold over the entries of an arena, by what holds after the first `k` of them. -/
lemma foldl_entries {α β : Type} {arena : Arena α} {step : β → Nat × α → β} {start : β}
    {motive : Nat → β → Prop} (hstart : motive 0 start)
    (hstep : ∀ k element state, arena[k]? = some element → motive k state →
      motive (k + 1) (step state (k, element))) :
    motive arena.size (arena.entries.foldl step start) := by
  have hlength : arena.entries.length = arena.size := by
    simp [Arena.entries, Arena.keys]
  have hupto : ∀ k ≤ arena.size, motive k ((arena.entries.take k).foldl step start) := by
    intro k hk
    induction k with
    | zero => simpa using hstart
    | succ k ih =>
      have helement : arena[k]? = some (arena[k]) := Array.getElem?_eq_getElem hk
      have hentry : arena.entries[k]? = some (k, arena[k]) := by
        rw [Arena.entries, List.getElem?_zip_eq_some, Arena.keys]
        refine ⟨?_, by rw [Array.getElem?_toList]; exact helement⟩
        rw [List.getElem?_range hk]
      rw [List.take_add_one, hentry, List.foldl_append]
      exact hstep k _ _ helement (ih (Nat.le_of_succ_le hk))
  have hall := hupto arena.size le_rfl
  rwa [List.take_of_length_le hlength.le] at hall

/-- How a draft represents the type at a position. The payloads of a result are what they were
when it was represented. -/
def Represents (types : TypeTable) (draft : Draft) (id : Nat) : StaticType → Prop
  | .unit => draft.representations.get id = .void ∧ draft.aggregates.get id = none
  | .never => draft.representations.get id = .void ∧ draft.aggregates.get id = none
  | .bool => draft.representations.get id = .i1 ∧ draft.aggregates.get id = none
  | .int => draft.representations.get id = .i64 ∧ draft.aggregates.get id = none
  | .float => draft.representations.get id = .f64 ∧ draft.aggregates.get id = none
  | .str => draft.representations.get id = .ptr ∧ draft.aggregates.get id = none
  | .data _ => draft.representations.get id = .ptr ∧ ∃ agg fields,
      draft.aggregates.get id = some agg ∧
      draft.layouts.get? agg = some (.data (typeName types id) fields)
  | .result ok err => ∃ agg okTy errTy, draft.representations.get id = .agg agg ∧
      draft.aggregates.get id = some agg ∧
      draft.layouts.get? agg = some (.result (typeName types id) okTy errTy) ∧
      (ok < id → okTy = draft.representations.get ok) ∧
      (err < id → errTy = draft.representations.get err)

/-- A draft after the first `upto` types are represented. -/
structure Represented (types : TypeTable) (upto : Nat) (draft : Draft) : Prop where
  indexed : Indexed draft.layouts
  bare : Bare draft.layouts
  represents : ∀ id ty, id < upto → types.get? id = some ty → Represents types draft id ty
  unset : ∀ id, upto ≤ id → draft.aggregates.get id = none

/-- What is represented stays so while later types are represented. -/
lemma Represents.later {types : TypeTable} {draft next : Draft} {id upto : Nat}
    {ty : StaticType} (h : Represents types draft id ty) (hid : id < upto)
    (hrep : ∀ other < upto, next.representations.get other = draft.representations.get other)
    (hagg : next.aggregates.get id = draft.aggregates.get id)
    (hget : ∀ agg layout, draft.layouts.get? agg = some layout →
      next.layouts.get? agg = some layout) : Represents types next id ty := by
  cases ty with
  | data data =>
    obtain ⟨hty, agg, fields, hsome, hlayout⟩ := h
    exact ⟨(hrep id hid).trans hty, agg, fields, hagg.trans hsome, hget _ _ hlayout⟩
  | result ok err =>
    obtain ⟨agg, okTy, errTy, hty, hsome, hlayout, hok, herr⟩ := h
    refine ⟨agg, okTy, errTy, (hrep id hid).trans hty, hagg.trans hsome, hget _ _ hlayout, ?_, ?_⟩
    · intro hlt
      rw [hrep ok (hlt.trans hid), hok hlt]
    · intro hlt
      rw [hrep err (hlt.trans hid), herr hlt]
  | unit | bool | int | float | str | never =>
    exact ⟨(hrep id hid).trans h.1, hagg.trans h.2⟩

section Represent

variable {types : TypeTable} {upto : Nat} {draft : Draft}

lemma represented_start : Represented types 0 {} where
  indexed := indexed_empty
  bare := by
    intro id layout hget
    simp [LayoutTable.get?, LayoutTable.empty] at hget
  represents _ _ hlt := absurd hlt (Nat.not_lt_zero _)
  unset id _ := by simp [SideTable.get]

lemma Represented.plain (h : Represented types upto draft) (ty : Ty) {kind : StaticType}
    (hkind : types.get? upto = some kind)
    (hnew : ∀ next : Draft, next.representations.get upto = ty →
      next.aggregates.get upto = none → Represents types next upto kind) :
    Represented types (upto + 1)
      { draft with representations := draft.representations.set upto ty } where
  indexed := h.indexed
  bare := h.bare
  represents id other hlt hget := by
    rcases Nat.lt_succ_iff_lt_or_eq.mp hlt with hlt | rfl
    · refine (h.represents id other hlt hget).later hlt (fun k hk => ?_) rfl fun _ _ hold => hold
      simp [hk.ne]
    · obtain rfl := Option.some.inj (hkind.symm.trans hget)
      exact hnew _ (by simp) (h.unset id le_rfl)
  unset id hle := h.unset id (Nat.le_of_succ_le hle)

/-- A type with a layout gets its representation, and the layout is interned. -/
lemma Represented.interned (h : Represented types upto draft) (layout : Layout) (ty : Nat → Ty)
    {kind : StaticType} (hkind : types.get? upto = some kind)
    (hlayout : layout.kind = .data → layout.fields = [])
    (hnew : ∀ next : Draft, next.representations =
        draft.representations.set upto (ty (draft.layouts.intern layout).1) →
      next.aggregates.get upto = some (draft.layouts.intern layout).1 →
      next.layouts.get? (draft.layouts.intern layout).1 = some layout →
      Represents types next upto kind) :
    Represented types (upto + 1)
      { layouts := (draft.layouts.intern layout).2
        representations := draft.representations.set upto (ty (draft.layouts.intern layout).1)
        aggregates := draft.aggregates.set upto (some (draft.layouts.intern layout).1) } where
  indexed := h.indexed.intern layout
  bare := h.bare.intern hlayout
  represents id other hlt hget := by
    rcases Nat.lt_succ_iff_lt_or_eq.mp hlt with hlt | rfl
    · refine (h.represents id other hlt hget).later hlt (fun k hk => ?_) ?_
        fun _ _ => get?_intern_of_get?
      · simp [hk.ne]
      · simp [hlt.ne]
    · obtain rfl := Option.some.inj (hkind.symm.trans hget)
      exact hnew _ rfl (by simp) (h.indexed.get?_intern layout)
  unset id hle := by
    have hne : id ≠ upto := by omega
    simpa [hne] using h.unset id (Nat.le_of_succ_le hle)

lemma Represented.step (h : Represented types upto draft) {kind : StaticType}
    (hkind : types.get? upto = some kind) :
    Represented types (upto + 1) (represent types draft (upto, kind)) := by
  cases kind with
  | unit | never | bool | int | float | str =>
    exact h.plain _ hkind fun _ hty hagg => ⟨hty, hagg⟩
  | data id =>
    refine h.interned (.data (typeName types upto) []) (fun _ => .ptr) hkind (fun _ => rfl) ?_
    intro next hrep hagg hlayout
    refine ⟨?_, _, _, hagg, hlayout⟩
    simp [hrep]
  | result ok err =>
    refine h.interned (.result (typeName types upto) _ _) .agg hkind (fun hdata => ?_) ?_
    · cases hdata
    · intro next hrep hagg hlayout
      refine ⟨_, _, _, by simp [hrep], hagg, hlayout, ?_, ?_⟩
      · intro hlt
        simp [hrep, hlt.ne]
      · intro hlt
        simp [hrep, hlt.ne]

lemma represented (types : TypeTable) : Represented types types.types.size
    ((Arena.entries types.types).foldl (represent types) {}) :=
  foldl_entries represented_start fun _ _ _ hkind h => h.step hkind

end Represent

/-- No other data type has the name of the one at a position. -/
def UniquelyNamed (types : TypeTable) (id : Nat) : Prop :=
  ∀ other data, types.get? other = some (.data data) →
    typeName types other = typeName types id → other = id

/-- The types of the fields of a data type, as a draft represents them. -/
def fieldTypes (types : TypeTable) (draft : Draft) (data : Nat) : List Ty :=
  (((types.data? data).map DataType.fields).getD []).map fun (_, ty) => draft.representations.get ty

/-- A draft in which the fields of the data types among the first `upto` types are filled in;
`before` is the draft in which none is. -/
structure FilledIn (types : TypeTable) (before : Draft) (upto : Nat) (draft : Draft) : Prop where
  tidy : Tidy draft.layouts
  representations : draft.representations = before.representations
  aggregates : draft.aggregates = before.aggregates
  represents : ∀ id ty, types.get? id = some ty → Represents types draft id ty
  fields : ∀ id data, id < upto → types.get? id = some (.data data) → UniquelyNamed types id →
    ∃ agg, draft.aggregates.get id = some agg ∧
      draft.layouts.get? agg = some (.data (typeName types id) (fieldTypes types before data))

section Fill

variable {types : TypeTable} {upto : Nat} {before draft : Draft}

lemma filledIn_start (h : Represented types types.types.size before) :
    FilledIn types before 0 before where
  tidy := h.indexed.tidy h.bare
  representations := rfl
  aggregates := rfl
  represents id ty hget := h.represents id ty (Array.getElem?_eq_some_iff.mp hget).1 hget
  fields _ _ hlt := absurd hlt (Nat.not_lt_zero _)

lemma Represents.setFields {id agg : Nat} {ty : StaticType} {name : String}
    {fields : List Ty} (h : Represents types draft id ty)
    (hagg : draft.layouts.get? agg = some (.data name fields)) (given : List Ty) :
    Represents types { draft with layouts := draft.layouts.setFields agg given } id ty := by
  cases ty with
  | data data =>
    obtain ⟨hty, other, old, hsome, hlayout⟩ := h
    refine ⟨hty, other, if other = agg then given else old, hsome, ?_⟩
    rw [get?_setFields hagg]
    split_ifs with heq
    · subst heq
      have hname := congrArg Layout.name (Option.some.inj (hagg.symm.trans hlayout))
      simp only [Layout.data] at hname
      rw [hname]
      rfl
    · exact hlayout
  | result ok err =>
    obtain ⟨other, okTy, errTy, hty, hsome, hlayout, hok, herr⟩ := h
    refine ⟨other, okTy, errTy, hty, hsome, ?_, hok, herr⟩
    have hne : other ≠ agg := by
      rintro rfl
      have hkind := congrArg Layout.kind (Option.some.inj (hagg.symm.trans hlayout))
      cases hkind
    rw [get?_setFields hagg, if_neg hne]
    exact hlayout
  | unit | bool | int | float | str | never => exact h

lemma FilledIn.step (h : FilledIn types before upto draft) {kind : StaticType}
    (hkind : types.get? upto = some kind) :
    FilledIn types before (upto + 1) (fillFields types draft (upto, kind)) := by
  have hrep := h.represents upto kind hkind
  have hskip : (∀ data, kind ≠ .data data) → FilledIn types before (upto + 1) draft := by
    refine fun hne => { h with fields := fun id data hlt hget => ?_ }
    rcases Nat.lt_succ_iff_lt_or_eq.mp hlt with hlt | rfl
    · exact h.fields id data hlt hget
    · exact absurd (Option.some.inj (hkind.symm.trans hget)) (hne data)
  cases kind with
  | data data =>
    obtain ⟨_, agg, fields, hsome, hlayout⟩ := hrep
    have hstep : fillFields types draft (upto, .data data) =
        { draft with layouts := draft.layouts.setFields agg (fieldTypes types draft data) } := by
      simp only [fillFields, hsome, fieldTypes]
    have hsame : fieldTypes types draft data = fieldTypes types before data := by
      simp only [fieldTypes, h.representations]
    rw [hstep, hsame]
    refine
      { tidy := h.tidy.setFields hlayout _
        representations := h.representations
        aggregates := h.aggregates
        represents := fun id ty hget => (h.represents id ty hget).setFields hlayout _
        fields := fun id other hlt hget hunique => ?_ }
    rcases Nat.lt_succ_iff_lt_or_eq.mp hlt with hlt | rfl
    · obtain ⟨agg', hsome', hlayout'⟩ := h.fields id other hlt hget hunique
      refine ⟨agg', hsome', ?_⟩
      have hne : agg' ≠ agg := by
        rintro rfl
        have hname := congrArg Layout.name (Option.some.inj (hlayout.symm.trans hlayout'))
        exact hlt.ne' (hunique upto data hkind hname)
      rw [get?_setFields hlayout, if_neg hne]
      exact hlayout'
    · obtain rfl := StaticType.data.inj (Option.some.inj (hkind.symm.trans hget))
      refine ⟨agg, hsome, ?_⟩
      rw [get?_setFields hlayout, if_pos rfl]
      rfl
  | unit | bool | int | float | str | never | result => exact hskip fun _ => nofun

lemma filledIn (types : TypeTable) : ∃ before, FilledIn types before types.types.size
    ((Arena.entries types.types).foldl (fillFields types)
      ((Arena.entries types.types).foldl (represent types) {})) :=
  ⟨_, foldl_entries (filledIn_start (represented types)) fun _ _ _ hkind h => h.step hkind⟩

end Fill

lemma ofProgram_tidy (digest : Digest) (prog : Program) : Tidy (ofProgram digest prog).layouts :=
  let ⟨_, h⟩ := filledIn prog.types
  h.tidy

end SsaLowering.Proofs
