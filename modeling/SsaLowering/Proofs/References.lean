import SsaLowering.Proofs.Edits

/-!
# References

The values and blocks that a function speaks of are those of its arenas. Removed values and blocks
keep their place there, and what they refer to counts too. Edits that bring no new references keep
it so.
-/

namespace SsaLowering.Proofs

open Ir

/-- Every reference to a value or block of a function points into its arenas. -/
structure InRange (function : Function) : Prop where
  operands : ∀ info ∈ function.values.toList, ∀ v ∈ info.inst.operands,
    v.id < function.values.size
  successors : ∀ info ∈ function.values.toList, ∀ b ∈ info.inst.successors,
    b.id < function.blocks.size
  homes : ∀ info ∈ function.values.toList, ∀ b ∈ info.block, b.id < function.blocks.size
  preds : ∀ info ∈ function.blocks.toList, ∀ b ∈ info.preds, b.id < function.blocks.size
  insts : ∀ info ∈ function.blocks.toList, ∀ v ∈ info.insts, v.id < function.values.size
  params : ∀ v ∈ function.params, v.id < function.values.size
  tags : ∀ entry ∈ function.tags, entry.1.id < function.values.size
  layout : ∀ b ∈ function.layout, b.id < function.blocks.size

/-- What one value refers to exists, where there are so many values and blocks. -/
structure ValueInRange (values blocks : Nat) (info : ValueInfo) : Prop where
  operands : ∀ v ∈ info.inst.operands, v.id < values
  successors : ∀ b ∈ info.inst.successors, b.id < blocks
  home : ∀ b ∈ info.block, b.id < blocks

/-- What one block refers to exists. -/
structure BlockInRange (values blocks : Nat) (info : BlockInfo) : Prop where
  preds : ∀ b ∈ info.preds, b.id < blocks
  insts : ∀ v ∈ info.insts, v.id < values

lemma mem_values_iff {f : Function} {info : ValueInfo} :
    info ∈ f.values.toList ↔ ∃ v, f.value? v = some info := by
  rw [List.mem_iff_getElem?]
  constructor
  · rintro ⟨i, hi⟩
    refine ⟨⟨i⟩, ?_⟩
    rw [Function.value?, ← Array.getElem?_toList]
    exact hi
  · rintro ⟨v, hv⟩
    refine ⟨v.id, ?_⟩
    rw [Array.getElem?_toList]
    exact hv

lemma mem_blocks_iff {f : Function} {info : BlockInfo} :
    info ∈ f.blocks.toList ↔ ∃ b, f.block? b = some info := by
  rw [List.mem_iff_getElem?]
  constructor
  · rintro ⟨i, hi⟩
    refine ⟨⟨i⟩, ?_⟩
    rw [Function.block?, ← Array.getElem?_toList]
    exact hi
  · rintro ⟨b, hb⟩
    refine ⟨b.id, ?_⟩
    rw [Array.getElem?_toList]
    exact hb

/-- What a function refers to exists, where there are so many values and blocks. -/
structure InRangeBy (f : Function) (values blocks : Nat) : Prop where
  values_size : f.values.size = values
  blocks_size : f.blocks.size = blocks
  value : ∀ v info, f.value? v = some info → ValueInRange values blocks info
  block : ∀ b info, f.block? b = some info → BlockInRange values blocks info
  params : ∀ v ∈ f.params, v.id < values
  untagged : f.tags = []
  layout : ∀ b ∈ f.layout, b.id < blocks

namespace InRangeBy

variable {f : Function} {values blocks : Nat}

lemma of_inRange (h : InRange f) (htags : f.tags = []) :
    InRangeBy f f.values.size f.blocks.size where
  values_size := rfl
  blocks_size := rfl
  value v info hv := by
    have hinfo := mem_values_iff.mpr ⟨v, hv⟩
    exact ⟨h.operands info hinfo, h.successors info hinfo, h.homes info hinfo⟩
  block b info hb := by
    have hinfo := mem_blocks_iff.mpr ⟨b, hb⟩
    exact ⟨h.preds info hinfo, h.insts info hinfo⟩
  params := h.params
  untagged := htags
  layout := h.layout

lemma inRange (h : InRangeBy f values blocks) : InRange f := by
  obtain ⟨rfl, rfl, hvalue, hblock, hparams, htags, hlayout⟩ := h
  refine ⟨fun info hinfo => ?_, fun info hinfo => ?_, fun info hinfo => ?_, fun info hinfo => ?_,
    fun info hinfo => ?_, hparams, by simp [htags], hlayout⟩
  · obtain ⟨v, hv⟩ := mem_values_iff.mp hinfo
    exact (hvalue v info hv).operands
  · obtain ⟨v, hv⟩ := mem_values_iff.mp hinfo
    exact (hvalue v info hv).successors
  · obtain ⟨v, hv⟩ := mem_values_iff.mp hinfo
    exact (hvalue v info hv).home
  · obtain ⟨b, hb⟩ := mem_blocks_iff.mp hinfo
    exact (hblock b info hb).preds
  · obtain ⟨b, hb⟩ := mem_blocks_iff.mp hinfo
    exact (hblock b info hb).insts

lemma modifyValue (h : InRangeBy f values blocks) (v : Value) {change : ValueInfo → ValueInfo}
    (hchange : ∀ info, ValueInRange values blocks info → ValueInRange values blocks (change info)) :
    InRangeBy (f.modifyValue v change) values blocks where
  values_size := (Array.size_modify ..).trans h.values_size
  blocks_size := h.blocks_size
  value w info hw := by
    rw [Function.value?_modifyValue] at hw
    split at hw
    · obtain ⟨old, hold, rfl⟩ := Option.map_eq_some_iff.mp hw
      exact hchange old (h.value w old hold)
    · exact h.value w info hw
  block := h.block
  params := h.params
  untagged := h.untagged
  layout := h.layout

lemma modifyBlock (h : InRangeBy f values blocks) (b : Block) {change : BlockInfo → BlockInfo}
    (hchange : ∀ info, f.block? b = some info → BlockInRange values blocks (change info)) :
    InRangeBy (f.modifyBlock b change) values blocks where
  values_size := h.values_size
  blocks_size := (Array.size_modify ..).trans h.blocks_size
  value := h.value
  block c info hc := by
    rw [Function.block?_modifyBlock] at hc
    split at hc
    · next heq =>
      subst heq
      obtain ⟨old, hold, rfl⟩ := Option.map_eq_some_iff.mp hc
      exact hchange old hold
    · exact h.block c info hc
  params := h.params
  untagged := h.untagged
  layout := h.layout

lemma foldl_modifyValue (h : InRangeBy f values blocks) (changed : List Value)
    {change : Value → ValueInfo → ValueInfo}
    (hchange : ∀ v info, ValueInRange values blocks info →
      ValueInRange values blocks (change v info)) :
    InRangeBy (changed.foldl (fun f v => f.modifyValue v (change v)) f) values blocks := by
  induction changed generalizing f with
  | nil => exact h
  | cons v changed ih => exact ih (h.modifyValue v (hchange v))

lemma foldl {α : Type} {step : Function → α → Function} (items : List α)
    (hstep : ∀ f, InRangeBy f values blocks → ∀ a, InRangeBy (step f a) values blocks)
    (h : InRangeBy f values blocks) : InRangeBy (items.foldl step f) values blocks := by
  induction items generalizing f with
  | nil => exact h
  | cons a items ih => exact ih (hstep f h a)

lemma insts_lt (h : InRangeBy f values blocks) {b : Block} {v : Value} (hv : v ∈ f.insts b) :
    v.id < values := by
  rw [Function.insts] at hv
  cases hb : f.block? b with
  | none =>
    rw [hb] at hv
    cases hv
  | some info =>
    rw [hb] at hv
    exact (h.block b info hb).insts v hv

lemma preds_lt (h : InRangeBy f values blocks) {b p : Block} (hp : p ∈ f.preds b) :
    p.id < blocks := by
  rw [Function.preds] at hp
  cases hb : f.block? b with
  | none =>
    rw [hb] at hp
    cases hp
  | some info =>
    rw [hb] at hp
    exact (h.block b info hb).preds p hp

end InRangeBy

end SsaLowering.Proofs
