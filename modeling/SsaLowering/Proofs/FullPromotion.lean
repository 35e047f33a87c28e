import SsaLowering.Proofs.SoundLowering

/-!
# Full promotion

Lowering uses the address of a slot for nothing but loads and stores. So SSA construction promotes
every slot that is not pinned, and finds nothing left to do when it is applied again.
-/

namespace SsaLowering.Proofs

open Ir Ssa Lowering List
open SsaLowering.Core (Body)
open Ir.Builder (firstBlock)

variable {f p g : Function} {entry : Block} {live : Block → Bool} {v : Value} {inst : Inst}
  {ty : Ty} {pinned : Bool}

/-! ### Hidden slots -/

/-- Slots are made in the entry, and their addresses are used for nothing but accesses. -/
structure SlotsHidden (f : Function) (entry : Block) : Prop where
  entry_only : ∀ b, ∀ v ∈ f.insts b, f.instIs isSlot v = true → b = entry
  hidden : ∀ b, ∀ v ∈ f.insts b, ∀ w ∈ escaping f v, f.instIs isSlot w = false

lemma escaping_of_inst (h : f.inst? v = some inst) : escaping f v = exposed inst := by
  rw [escaping, h]
  cases inst <;> rfl

lemma exposed_subset (inst : Inst) : exposed inst ⊆ inst.operands := by
  cases inst with
  | load ty address => exact nil_subset _
  | store address stored => exact subset_cons_self _ _
  | _ => exact List.Subset.refl _

lemma instIs_isSlot (h : f.inst? v = some (.alloca ty pinned)) : f.instIs isSlot v = true := by
  rw [Function.instIs, h]
  rfl

/-- Finished code has its slots at the head of the entry, and exposes none of them. -/
lemma Finished.slotsHidden {A : Avail} {b : Builder} (h : Finished A b) :
    SlotsHidden b.function firstBlock where
  entry_only t v hv hslot := by
    rcases h.inst_cases hv with ⟨ht, -⟩ | ⟨_, _, inst, -, hinst, hformed⟩
    · exact ht
    · rw [Function.instIs, hinst, Option.any_some, isSlot_eq_false hformed.plain] at hslot
      cases hslot
  hidden t v hv w hw := by
    rcases h.inst_cases hv with ⟨-, -, inst, hinst, hhead, -⟩ | ⟨_, _, inst, -, hinst, hformed⟩
    all_goals rw [escaping_of_inst hinst] at hw
    · have hmem := exposed_subset inst hw
      rw [(head_inst_plain hhead).2.2.1] at hmem
      cases hmem
    · rcases hformed.usable w (exposed_subset inst hw) with husable | ⟨-, hnot⟩
      · exact husable.2.2
      · exact absurd hw hnot

/-! ### Slots that are left -/

lemma mem_of_mem_keepMarked {α : Type} {items : List α} {marks : List Bool} {x : α}
    (h : x ∈ keepMarked items marks) : x ∈ items := by
  obtain ⟨⟨_, mark⟩, hmem, rfl⟩ := mem_map.mp h
  exact (of_mem_zip (mem_filter.mp hmem).1).1

lemma dropArgs_eq_alloca {marks : List Bool} :
    dropArgs marks inst = .alloca ty pinned ↔ inst = .alloca ty pinned := by
  cases inst <;> simp [dropArgs]

section

variable (h : Trimmed f p entry live) (hf : WellFormed f entry)
include h hf

lemma Trimmed.alloca_iff {b : Block} (hb : Reached f entry b) (hv : v ∈ f.insts b) :
    p.inst? v = some (.alloca ty pinned) ↔ f.inst? v = some (.alloca ty pinned) := by
  rw [h.inst?_of_mem hf hb hv]
  simp only [Option.map_eq_some_iff, dropArgs_eq_alloca, exists_eq_right]

lemma Trimmed.escaping_subset {b : Block} (hb : Reached f entry b) {u : Value} (hu : u ∈ f.insts b) :
    escaping p u ⊆ escaping f u := by
  obtain ⟨inst, hinst⟩ := Option.isSome_iff_exists.mp (hf.values_exist b hb u hu)
  have hinst' := h.inst?_of_mem hf hb hu
  rw [hinst, Option.map_some] at hinst'
  rw [escaping_of_inst hinst, escaping_of_inst hinst']
  cases inst with
  | phi ty args => exact fun w hw => mem_of_mem_keepMarked hw
  | _ => exact List.Subset.refl _

lemma Trimmed.mem_placedValues : v ∈ p.placedValues ↔ ∃ b, Reached f entry b ∧ v ∈ f.insts b := by
  rw [(h.pruned hf).mem_placedValues_iff]
  refine exists_congr fun b => ?_
  rw [h.reached_iff hf]
  exact and_congr_right fun hb => by rw [h.insts_eq b hb]

lemma Trimmed.promotable_eq (hs : SlotsHidden f entry) :
    promotable p = p.placedValues.filterMap (slotMade? p) := by
  refine filter_eq_self.mpr fun slot hslot => decide_eq_true fun hescaped => ?_
  obtain ⟨v, hv, hmade⟩ := mem_filterMap.mp hslot
  obtain ⟨rfl, hinst⟩ := slotMade?_eq_some_iff.mp hmade
  obtain ⟨b, hb, hv⟩ := (h.mem_placedValues hf).mp hv
  obtain ⟨u, hu, hmem⟩ := mem_flatMap.mp hescaped
  obtain ⟨c, hc, hu⟩ := (h.mem_placedValues hf).mp hu
  have hnot := hs.hidden c u hu _ (h.escaping_subset hf hc hu hmem)
  rw [instIs_isSlot ((h.alloca_iff hf hb hv).mp hinst)] at hnot
  cases hnot

lemma Trimmed.slots_eq (hs : SlotsHidden f entry) :
    p.placedValues.filterMap (slotMade? p) = f.placedValues.filterMap (slotMade? f) := by
  have hlive (b : Block) (hb : live b = true) :
      (p.insts b).filterMap (slotMade? p) = (f.insts b).filterMap (slotMade? f) := by
    have hreached := (h.live_iff b).mp hb
    rw [h.insts_eq b hreached]
    refine filterMap_congr fun v hv => Option.ext fun slot => ?_
    rw [slotMade?_eq_some_iff, slotMade?_eq_some_iff, h.alloca_iff hf hreached hv]
  have hdead (b : Block) (hb : live b = false) : (f.insts b).filterMap (slotMade? f) = [] := by
    refine filterMap_eq_nil_iff.mpr fun v hv => Option.eq_none_iff_forall_ne_some.mpr fun slot hmade => ?_
    obtain ⟨-, hinst⟩ := slotMade?_eq_some_iff.mp hmade
    rw [hs.entry_only b v hv (instIs_isSlot hinst), (h.live_iff entry).mpr .at_entry] at hb
    cases hb
  rw [Function.placedValues, Function.placedValues, h.layout_eq, filterMap_flatMap,
    filterMap_flatMap]
  induction f.layout with
  | nil => rfl
  | cons b layout ih =>
    cases hb : live b with
    | true => rw [filter_cons_of_pos hb, flatMap_cons, flatMap_cons, ih, hlive b hb]
    | false =>
      rw [filter_cons_of_neg (by simp [hb]), flatMap_cons, hdead b hb, nil_append, ih]

end

/-- The slots that are placed in a function are the pinned ones of another. -/
def KeepsPinned (f g : Function) : Prop :=
  ∀ v ty pinned, v ∈ g.placedValues ∧ g.inst? v = some (.alloca ty pinned) ↔
    pinned = true ∧ v ∈ f.placedValues ∧ f.inst? v = some (.alloca ty true)

lemma Promoted.keepsPinned {doms : Dominators} {homes : List (Slot × Block)} {placed : Placed}
    {walk : Renaming} {held : Block → Held} (h : Stage p entry doms (promotable p) homes placed)
    (hg : Promoted p entry (promotable p) homes placed walk held g) (hp : Pruned p entry)
    (hall : promotable p = p.placedValues.filterMap (slotMade? p)) : KeepsPinned p g := by
  intro v ty pinned
  have hplaced : v ∈ g.placedValues ↔ ∃ b, Reached p entry b ∧ v ∈ g.insts b := by
    rw [Function.placedValues, hg.layout_eq, mem_flatMap]
    exact exists_congr fun b => and_congr_left fun _ => hp.mem_layout_iff b
  constructor
  · rintro ⟨hv, hinst⟩
    obtain ⟨b, hb, hv⟩ := hplaced.mp hv
    rcases hg.inst_cases h hb hv with
      ⟨inst, hold, hkept, hinst1, hinst'⟩ | ⟨i, s, hhome, rfl⟩ | ⟨-, _, -, hundef⟩
    · have hmade : p.inst? v = some (.alloca ty pinned) := by
        rw [hinst1]
        rw [hinst] at hinst'
        cases inst <;> cases hinst'
        rfl
      have hmem := (hp.mem_placedValues_iff v).mpr ⟨b, hb, hold⟩
      cases pinned with
      | true => exact ⟨rfl, hmem, hmade⟩
      | false =>
        have hslot : (⟨v, ty⟩ : Slot) ∈ promotable p :=
          hall ▸ mem_filterMap.mpr ⟨v, hmem, slotMade?_eq_some_iff.mpr ⟨rfl, hmade⟩⟩
        rw [isDropped_iff.mpr (.inl ⟨_, hslot, rfl⟩)] at hkept
        cases hkept
    · obtain ⟨args, hphi, -⟩ := hg.inst_phi i s b hhome
      cases hinst.symm.trans hphi
    · cases hinst.symm.trans hundef
  · rintro ⟨rfl, hv, hinst⟩
    obtain ⟨b, hb, hv⟩ := (hp.mem_placedValues_iff v).mp hv
    have hkept : isDropped (promotable p) p v = false := by
      by_contra hdropped
      rcases isDropped_iff.mp (Bool.eq_true_of_not_eq_false hdropped) with
        ⟨s, hs, rfl⟩ | ⟨s, hacc⟩ | ⟨s, x, hacc⟩
      · cases hinst.symm.trans ((h.slots_iff s).mp hs).alloca
      · obtain ⟨-, _, hload⟩ := (access?_eq_load_iff h.distinct).mp hacc
        cases hinst.symm.trans hload
      · cases hinst.symm.trans ((access?_eq_store_iff h.distinct).mp hacc).2
    refine ⟨hplaced.mpr ⟨b, hb, (hg.mem_insts_iff h hb).mpr (.inl ⟨h.mem_insts.mpr (.inl hv), hkept⟩)⟩, ?_⟩
    rw [hg.inst_kept b hb v hv hkept, hinst]
    rfl

/-! ### Nothing left to do -/

lemma Pruned.operand_placed (hp : Pruned g entry) (hv : v ∈ g.placedValues)
    (hinst : g.inst? v = some inst) (hphi : inst.isPhi = false) {w : Value}
    (hw : w ∈ inst.operands) : w ∈ g.placedValues := by
  obtain ⟨b, hb, hv⟩ := (hp.mem_placedValues_iff v).mp hv
  obtain ⟨place, hplace⟩ := mem_iff_getElem?.mp hv
  exact hp.placed_of_definedBefore hb (hp.defined b hb place v inst hplace hinst hphi w hw)

lemma Pruned.construct_eq (hp : Pruned g entry) (hnone : promotable g = []) :
    construct g = .ok ({}, g) := by
  obtain ⟨doms, hcompute, hd⟩ := compute_dominatorsOf hp.entry_eq hp.blocks_exist hp.predsAgree
  have hall : ∀ b ∈ g.layout, doms.isReachable b = true :=
    fun b hb => (hd.isReachable_iff b).mpr (hp.layout_reached b hb)
  have hprune : prune g = .ok (0, g) := by
    unfold prune
    rw [hcompute]
    dsimp only [bind, Except.bind]
    rw [partition_eq_filter_filter]
    rw [if_pos]
    · rfl
    · rw [List.isEmpty_iff, List.filter_eq_nil_iff]
      simpa using hall
  unfold construct
  rw [hp.entry_eq, hprune]
  dsimp only [bind, Except.bind]
  rw [hcompute]
  rw [hnone]
  rfl

lemma construct_promotes (hf : WellFormed f entry) (hplain : Plain f entry) (hs : SlotsHidden f entry) :
    ∃ stats g, construct f = .ok (stats, g) ∧ KeepsPinned f g ∧ Pruned g entry ∧
      stats.promotedSlots = (f.placedValues.filterMap (slotMade? f)).length := by
  obtain ⟨stats, g, count, p, live, hconstruct, -, htrim, hstats, hg⟩ := construct_cases hf
  have hp := htrim.pruned hf
  have hall := htrim.promotable_eq hf hs
  have hpinned : KeepsPinned p g ∧ Pruned g entry := by
    rcases hg with ⟨hnone, rfl⟩ | ⟨doms, homes, placed, walk, held, hstage, hr, rfl⟩
    · refine ⟨fun v ty pinned => ?_, hp⟩
      cases pinned with
      | true => simp
      | false =>
        simp only [Bool.false_eq_true, false_and, iff_false, not_and]
        intro hv hinst
        have hslot : (⟨v, ty⟩ : Slot) ∈ promotable g :=
          hall ▸ mem_filterMap.mpr ⟨v, hv, slotMade?_eq_some_iff.mpr ⟨rfl, hinst⟩⟩
        rw [hnone] at hslot
        cases hslot
    · have hpromoted := hr.promoted hstage
      exact ⟨hpromoted.keepsPinned hstage hp hall,
        hpromoted.pruned hstage hr (htrim.plain hf hplain)⟩
  refine ⟨stats, g, hconstruct, fun v ty pinned => (hpinned.1 v ty pinned).trans ?_, hpinned.2, ?_⟩
  · refine and_congr_right fun _ => ?_
    rw [htrim.mem_placedValues hf, Function.placedValues, mem_flatMap]
    constructor
    · rintro ⟨⟨b, hb, hv⟩, hinst⟩
      exact ⟨⟨b, hf.listed b hb, hv⟩, (htrim.alloca_iff hf hb hv).mp hinst⟩
    · rintro ⟨⟨b, -, hv⟩, hinst⟩
      obtain rfl := hs.entry_only b v hv (instIs_isSlot hinst)
      exact ⟨⟨b, .at_entry, hv⟩, (htrim.alloca_iff hf .at_entry hv).mpr hinst⟩
  · rw [hstats, hall, htrim.slots_eq hf hs]

/-- SSA construction promotes every slot of a lowered body that is not pinned, and leaves nothing for
another construction to do. -/
theorem lowered_slots_are_promoted {env : Environment} {body : Body}
    (h : (lowerBody env body).function = .ok f) :
    ∃ stats g, construct f = .ok (stats, g) ∧
      (∀ v ∈ g.placedValues, ∀ ty, g.inst? v ≠ some (.alloca ty false)) ∧
      (∀ v ∈ g.placedValues, ∀ address, (∃ ty, g.inst? v = some (.load ty address)) ∨
        (∃ stored, g.inst? v = some (.store address stored)) →
          ∀ ty, g.inst? address ≠ some (.alloca ty false)) ∧
      KeepsPinned f g ∧ stats.promotedSlots = (f.placedValues.filterMap (slotMade? f)).length ∧
      construct g = .ok ({}, g) := by
  have hlowered := lowerBody_finished env body
  rw [h] at hlowered
  obtain ⟨A, b, hfinished, -, rfl⟩ := hlowered
  obtain ⟨stats, g, hconstruct, hpinned, hp, hstats⟩ :=
    construct_promotes hfinished.wellFormed hfinished.plain hfinished.slotsHidden
  have hnone (v : Value) (hv : v ∈ g.placedValues) (ty : Ty) : g.inst? v ≠ some (.alloca ty false) :=
    fun hinst => Bool.false_ne_true ((hpinned v ty false).mp ⟨hv, hinst⟩).1
  refine ⟨stats, g, hconstruct, hnone, fun v hv address haccess => hnone address ?_, hpinned, hstats,
    hp.construct_eq ?_⟩
  · rcases haccess with ⟨ty, hinst⟩ | ⟨stored, hinst⟩
    · exact hp.operand_placed hv hinst rfl (mem_singleton_self _)
    · exact hp.operand_placed hv hinst rfl mem_cons_self
  · refine List.filter_eq_nil_iff.mpr fun slot hslot => ?_
    obtain ⟨v, hv, hmade⟩ := mem_filterMap.mp hslot
    exact absurd (slotMade?_eq_some_iff.mp hmade).2 (hnone v hv slot.ty)

/-- The counter of a counting body is promoted. -/
theorem countUp_is_promoted :
    ∃ f, (lowerBody (.ofProgram .fnv ⟨"", .initial, []⟩) countUp).function = .ok f ∧
      ∃ stats g, construct f = .ok (stats, g) ∧ stats.promotedSlots = 1 ∧ KeepsPinned f g ∧
        construct g = .ok ({}, g) := by
  obtain ⟨f, hf⟩ := countUp_lowers
  have hone : (lowerBody (.ofProgram .fnv ⟨"", .initial, []⟩) countUp).function.toOption.map
      (fun f => (f.placedValues.filterMap (slotMade? f)).length) = some 1 := by
    decide +kernel
  rw [hf] at hone
  obtain ⟨stats, g, hconstruct, -, -, hpinned, hstats, hagain⟩ := lowered_slots_are_promoted hf
  exact ⟨f, hf, stats, g, hconstruct, hstats.trans (Option.some.inj hone), hpinned, hagain⟩

end SsaLowering.Proofs
