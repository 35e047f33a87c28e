import SsaLowering.Source.Loading
import SsaLowering.Proofs.Verification

/-!
# The static types of loaded programs

Loading keeps the table of static types in order: no type stands in it twice, results come after
their payloads, there is one type for each data type, and data types have different names.
-/

namespace SsaLowering.Proofs

open Source

/-- The order in which loading keeps a table of static types. -/
structure Regular (types : TypeTable) : Prop where
  primitives : ∀ id ty, TypeTable.initial.get? id = some ty → types.get? id = some ty
  distinct : ∀ i j ty, types.get? i = some ty → types.get? j = some ty → i = j
  payloads : ∀ id ok err, types.get? id = some (.result ok err) → ok < id ∧ err < id
  datas : ∀ data, data < types.datas.size ↔ ∃ id, types.get? id = some (.data data)
  names : ∀ i j a b, types.data? i = some a → types.data? j = some b → a.name = b.name → i = j

lemma regular_initial : Regular .initial where
  primitives _ _ h := h
  distinct i j ty hi hj := by
    have hnodup : TypeTable.initial.types.toList.Nodup := by decide
    rw [TypeTable.get?, ← Array.getElem?_toList] at hi hj
    exact (List.getElem?_inj (List.getElem?_eq_some_iff.mp hi).1 hnodup).mp (hi.trans hj.symm)
  payloads id ok err h := by
    have hmem := Array.mem_of_getElem? h
    simp [TypeTable.initial] at hmem
  datas data := by
    refine iff_of_false (Nat.not_lt_zero _) ?_
    rintro ⟨id, h⟩
    have hmem := Array.mem_of_getElem? h
    simp [TypeTable.initial] at hmem
  names i j a b hi := by simp [TypeTable.data?, TypeTable.initial] at hi

/-- A table that holds the types of another one where they are, and the same data types. -/
structure Widens (types wider : TypeTable) : Prop where
  get? : ∀ id ty, types.get? id = some ty → wider.get? id = some ty
  datas : wider.datas = types.datas

namespace Widens

lemma refl (types : TypeTable) : Widens types types :=
  ⟨fun _ _ h => h, rfl⟩

lemma trans {a b c : TypeTable} (hab : Widens a b) (hbc : Widens b c) : Widens a c :=
  ⟨fun id ty h => hbc.get? id ty (hab.get? id ty h), hbc.datas.trans hab.datas⟩

end Widens

/-! ### Interning -/

def withType (types : TypeTable) (ty : StaticType) : TypeTable :=
  { types with types := types.types.push ty }

lemma get?_withType {types : TypeTable} {ty other : StaticType} {id : Nat} :
    (withType types ty).get? id = some other ↔
      types.get? id = some other ∨ id = types.size ∧ other = ty := by
  simp only [withType, TypeTable.get?, TypeTable.size, Array.getElem?_push]
  split_ifs with hid
  · subst hid
    simp [eq_comm]
  · simp [hid]

lemma intern_cases (types : TypeTable) (ty : StaticType) :
    (∃ id, types.get? id = some ty ∧ types.intern ty = (id, types)) ∨
      (∀ id, types.get? id ≠ some ty) ∧
        types.intern ty = (types.size, withType types ty) := by
  rw [TypeTable.intern]
  cases hfind : types.types.toList.findIdx? (· = ty) with
  | some id =>
    refine .inl ⟨id, ?_, rfl⟩
    obtain ⟨hlt, hty, -⟩ := List.findIdx?_eq_some_iff_getElem.mp hfind
    rw [TypeTable.get?, ← Array.getElem?_toList, List.getElem?_eq_getElem hlt]
    simpa using hty
  | none =>
    refine .inr ⟨fun id hid => ?_, rfl⟩
    have hnone := List.findIdx?_eq_none_iff.mp hfind ty
      (Array.mem_toList_iff.mpr (Array.mem_of_getElem? hid))
    simp at hnone

namespace Regular

variable {types : TypeTable}

lemma lt_size {id : Nat} {ty : StaticType} (h : types.get? id = some ty) : id < types.size :=
  (Array.getElem?_eq_some_iff.mp h).1

/-- A type that is not there yet may be added behind the others. -/
lemma withType_distinct (h : Regular types) {ty : StaticType}
    (hnew : ∀ id, types.get? id ≠ some ty) (i j : Nat) (other : StaticType)
    (hi : (withType types ty).get? i = some other) (hj : (withType types ty).get? j = some other) :
    i = j := by
  rcases get?_withType.mp hi with hi | ⟨rfl, rfl⟩ <;> rcases get?_withType.mp hj with hj | ⟨rfl, hty⟩
  · exact h.distinct i j other hi hj
  · exact absurd (hty ▸ hi) (hnew i)
  · exact absurd hj (hnew j)
  · rfl

lemma widens_withType (types : TypeTable) (ty : StaticType) : Widens types (withType types ty) where
  get? _ _ h := get?_withType.mpr (.inl h)
  datas := rfl

lemma result (h : Regular types) {ok err : Nat} (hok : ok < types.size) (herr : err < types.size) :
    Regular (types.result ok err).2 ∧ Widens types (types.result ok err).2 := by
  rw [TypeTable.result]
  rcases intern_cases types (.result ok err) with ⟨id, -, heq⟩ | ⟨hnew, heq⟩
  · rw [heq]
    exact ⟨h, .refl types⟩
  · rw [heq]
    have hwider := widens_withType types (.result ok err)
    refine ⟨?_, hwider⟩
    exact
      { primitives := fun id ty hty => hwider.get? id ty (h.primitives id ty hty)
        distinct := h.withType_distinct hnew
        payloads := fun id ok' err' hget => by
          rcases get?_withType.mp hget with hget | ⟨rfl, heq⟩
          · exact h.payloads id ok' err' hget
          · cases heq
            exact ⟨hok, herr⟩
        datas := fun data => by
          refine (h.datas data).trans ⟨fun ⟨id, hget⟩ => ⟨id, hwider.get? id _ hget⟩, ?_⟩
          rintro ⟨id, hget⟩
          rcases get?_withType.mp hget with hget | ⟨-, heq⟩
          · exact ⟨id, hget⟩
          · cases heq
        names := h.names }

lemma declareData_eq (h : Regular types) (name : String) : types.declareData name =
    (types.size, withType { types with datas := types.datas.push { name } }
      (.data types.datas.size)) := by
  rcases intern_cases { types with datas := types.datas.push { name } } (.data types.datas.size) with
    ⟨id, hget, -⟩ | ⟨-, heq⟩
  · exact absurd ((h.datas _).mpr ⟨id, hget⟩) (Nat.lt_irrefl _)
  · exact heq

lemma declareData (h : Regular types) {name : String}
    (hname : ∀ id data, types.data? id = some data → data.name ≠ name) :
    Regular (types.declareData name).2 := by
  have hnew : ∀ id, types.get? id ≠ some (.data types.datas.size) := fun id hget =>
    Nat.lt_irrefl _ ((h.datas _).mpr ⟨id, hget⟩)
  let declared : TypeTable := { types with datas := types.datas.push { name } }
  have hget {id : Nat} {other : StaticType} :
      (withType declared (.data types.datas.size)).get? id = some other ↔
        types.get? id = some other ∨ id = types.size ∧ other = .data types.datas.size :=
    get?_withType
  have hdata {id : Nat} {data : DataType} :
      (withType declared (.data types.datas.size)).data? id = some data ↔
        types.data? id = some data ∨ id = types.datas.size ∧ data = { name } := by
    simp only [withType, declared, TypeTable.data?, Array.getElem?_push]
    split_ifs with hid
    · subst hid
      simp [eq_comm]
    · simp [hid]
  rw [h.declareData_eq name]
  exact
    { primitives := fun id ty hty => hget.mpr (.inl (h.primitives id ty hty))
      distinct := fun i j ty hi hj => h.withType_distinct hnew i j ty (get?_withType.mpr (hget.mp hi))
        (get?_withType.mpr (hget.mp hj))
      payloads := fun id ok err hresult => by
        rcases hget.mp hresult with hresult | ⟨-, heq⟩
        · exact h.payloads id ok err hresult
        · cases heq
      datas := fun data => by
        have hsize : (withType declared (.data types.datas.size)).datas.size =
            types.datas.size + 1 := by
          simp [withType, declared]
        rw [hsize, Nat.lt_succ_iff_lt_or_eq, h.datas]
        constructor
        · rintro (⟨id, hid⟩ | rfl)
          · exact ⟨id, hget.mpr (.inl hid)⟩
          · exact ⟨types.size, hget.mpr (.inr ⟨rfl, rfl⟩)⟩
        · rintro ⟨id, hid⟩
          rcases hget.mp hid with hid | ⟨-, heq⟩
          · exact .inl ⟨id, hid⟩
          · exact .inr (StaticType.data.inj heq)
      names := fun i j a b hi hj hab => by
        rcases hdata.mp hi with hi | ⟨rfl, rfl⟩ <;> rcases hdata.mp hj with hj | ⟨rfl, rfl⟩
        · exact h.names i j a b hi hj hab
        · exact absurd hab (hname i a hi)
        · exact absurd hab.symm (hname j b hj)
        · rfl }

lemma defineData (h : Regular types) (id : Nat) (fields : List (String × Nat)) :
    Regular (types.defineData id fields) where
  primitives := h.primitives
  distinct := h.distinct
  payloads := h.payloads
  datas data := by
    have hsize : (types.defineData id fields).datas.size = types.datas.size := by
      simp [TypeTable.defineData]
    rw [hsize]
    exact h.datas data
  names i j a b hi hj hab := by
    have hback : ∀ k c, (types.defineData id fields).data? k = some c →
        ∃ c', types.data? k = some c' ∧ c'.name = c.name := by
      intro k c hk
      simp only [TypeTable.defineData, TypeTable.data?, Array.getElem?_modify] at hk
      split_ifs at hk with heq
      · obtain ⟨c', hc', rfl⟩ := Option.map_eq_some_iff.mp hk
        exact ⟨c', hc', rfl⟩
      · exact ⟨c, hk, rfl⟩
    obtain ⟨a', ha', hna⟩ := hback i a hi
    obtain ⟨b', hb', hnb⟩ := hback j b hj
    exact h.names i j a' b' ha' hb' (by rw [hna, hnb, hab])

end Regular

end SsaLowering.Proofs
