import SsaLowering.Ssa.Placement
import SsaLowering.Proofs.Trimming

/-!
# Slots and their accesses

The slots that can be promoted are those that nothing but their loads and stores names. A slot is
live at the entry of a block from which a load of it can be reached without a store in between.
-/

namespace SsaLowering.Proofs

open Ir Ssa List

variable {v : Value} {s : Slot} {b : Block}

/-- A function in order of which every block can be reached. -/
structure Pruned (p : Function) (entry : Block) : Prop extends Orderly p entry where
  layout_reached : ∀ b ∈ p.layout, Reached p entry b
  preds_reached : ∀ b, Reached p entry b → ∀ q ∈ p.preds b, Reached p entry q

lemma Trimmed.pruned {f p : Function} {entry : Block} {live : Block → Bool}
    (h : Trimmed f p entry live) (hf : WellFormed f entry) : Pruned p entry where
  toOrderly := (h.wellFormed hf).toOrderly
  layout_reached _ hb := h.layout_reached hf hb
  preds_reached _ hb _ hq := h.preds_reached hf hb hq

section

variable {p : Function} {entry : Block}

lemma Pruned.mem_layout_iff (hp : Pruned p entry) (b : Block) : b ∈ p.layout ↔ Reached p entry b :=
  ⟨hp.layout_reached b, hp.listed b⟩

lemma Pruned.mem_placedValues_iff (hp : Pruned p entry) (v : Value) :
    v ∈ p.placedValues ↔ ∃ b, Reached p entry b ∧ v ∈ p.insts b := by
  rw [Function.placedValues, mem_flatMap]
  exact exists_congr fun b => and_congr_left fun _ => hp.mem_layout_iff b

lemma Pruned.placedValues_nodup (hp : Pruned p entry) : p.placedValues.Nodup := by
  rw [Function.placedValues, nodup_flatMap]
  refine ⟨fun b hb => hp.insts_nodup b (hp.layout_reached b hb), ?_⟩
  refine hp.layout_nodup.imp_of_mem fun {b c} hb hc hne v hv hv' => hne ?_
  exact hp.home_unique b c (hp.layout_reached b hb) (hp.layout_reached c hc) v hv hv'

/-! ### Slots -/

/-- A slot that nothing but its loads and stores names. -/
structure PrivateSlot (p : Function) (entry : Block) (slot : Slot) : Prop where
  placed : ∃ b, Reached p entry b ∧ slot.address ∈ p.insts b
  alloca : p.inst? slot.address = some (.alloca slot.ty false)
  hidden : ∀ b, Reached p entry b → ∀ v ∈ p.insts b, slot.address ∉ escaping p v

lemma slotMade?_eq_some_iff {slot : Slot} :
    slotMade? p v = some slot ↔ slot.address = v ∧ p.inst? v = some (.alloca slot.ty false) := by
  unfold slotMade?
  constructor
  · intro h
    split at h
    · next ty hinst =>
      cases h
      exact ⟨rfl, hinst⟩
    · cases h
  · rintro ⟨rfl, hinst⟩
    rw [hinst]

lemma Pruned.mem_promotable_iff (hp : Pruned p entry) (slot : Slot) :
    slot ∈ promotable p ↔ PrivateSlot p entry slot := by
  simp only [promotable, mem_filter, mem_filterMap, slotMade?_eq_some_iff,
    decide_eq_true_eq, mem_flatMap, not_exists, not_and]
  constructor
  · rintro ⟨⟨v, hv, rfl, hinst⟩, hhidden⟩
    exact ⟨(hp.mem_placedValues_iff _).mp hv, hinst,
      fun c hc w hw => hhidden w ((hp.mem_placedValues_iff w).mpr ⟨c, hc, hw⟩)⟩
  · rintro ⟨hplaced, hinst, hhidden⟩
    refine ⟨⟨slot.address, (hp.mem_placedValues_iff _).mpr hplaced, rfl, hinst⟩, fun w hw => ?_⟩
    obtain ⟨b, hb, hwb⟩ := (hp.mem_placedValues_iff w).mp hw
    exact hhidden b hb w hwb

def Distinct (slots : List Slot) : Prop :=
  ∀ s ∈ slots, ∀ t ∈ slots, s.address = t.address → s = t

lemma distinct_promotable (p : Function) : Distinct (promotable p) := by
  have hmade : ∀ s ∈ promotable p, p.inst? s.address = some (.alloca s.ty false) := by
    intro s hs
    obtain ⟨v, -, hv⟩ := mem_filterMap.mp (mem_filter.mp hs).1
    obtain ⟨rfl, hinst⟩ := slotMade?_eq_some_iff.mp hv
    exact hinst
  rintro ⟨a, ty⟩ hs ⟨a', ty'⟩ ht heq
  obtain rfl : a = a' := heq
  have hinst := (hmade ⟨a, ty⟩ hs).symm.trans (hmade ⟨a, ty'⟩ ht)
  exact congrArg (Slot.mk a) (Inst.alloca.inj (Option.some.inj hinst)).1

lemma Distinct.eq {slots : List Slot} (h : Distinct slots) {t : Slot} (hs : s ∈ slots)
    (ht : t ∈ slots) (heq : s.address = t.address) : s = t :=
  h s hs t ht heq

lemma Distinct.find?_eq_some_iff {slots : List Slot} (h : Distinct slots) {a : Value} :
    slots.find? (·.address = a) = some s ↔ s ∈ slots ∧ s.address = a := by
  constructor
  · intro hfind
    exact ⟨mem_of_find?_eq_some hfind, by simpa using find?_some hfind⟩
  · rintro ⟨hs, rfl⟩
    cases hfind : slots.find? (·.address = s.address) with
    | none => simpa using find?_eq_none.mp hfind s hs
    | some t =>
      rw [h.eq (mem_of_find?_eq_some hfind) hs (by simpa using find?_some hfind)]

/-! ### Accesses -/

variable {slots : List Slot}

lemma access?_eq_load_iff (h : Distinct slots) :
    access? slots p v = some (s, .load) ↔
      s ∈ slots ∧ ∃ ty, p.inst? v = some (.load ty s.address) := by
  unfold access?
  constructor
  · intro hacc
    split at hacc
    · next ty a hinst =>
      obtain ⟨t, hfind, heq⟩ := Option.map_eq_some_iff.mp hacc
      cases heq
      obtain ⟨hs, rfl⟩ := h.find?_eq_some_iff.mp hfind
      exact ⟨hs, ty, hinst⟩
    · next a x hinst =>
      obtain ⟨t, -, heq⟩ := Option.map_eq_some_iff.mp hacc
      cases heq
    · cases hacc
  · rintro ⟨hs, ty, hinst⟩
    rw [hinst]
    dsimp only
    rw [h.find?_eq_some_iff.mpr ⟨hs, rfl⟩]
    rfl

lemma access?_eq_store_iff (h : Distinct slots) {x : Value} :
    access? slots p v = some (s, .store x) ↔
      s ∈ slots ∧ p.inst? v = some (.store s.address x) := by
  unfold access?
  constructor
  · intro hacc
    split at hacc
    · next ty a hinst =>
      obtain ⟨t, -, heq⟩ := Option.map_eq_some_iff.mp hacc
      cases heq
    · next a y hinst =>
      obtain ⟨t, hfind, heq⟩ := Option.map_eq_some_iff.mp hacc
      cases heq
      obtain ⟨hs, rfl⟩ := h.find?_eq_some_iff.mp hfind
      exact ⟨hs, hinst⟩
    · cases hacc
  · rintro ⟨hs, hinst⟩
    rw [hinst]
    dsimp only
    rw [h.find?_eq_some_iff.mpr ⟨hs, rfl⟩]
    rfl

lemma access?_congr {F G : Function} (h : F.inst? v = G.inst? v) :
    access? slots F v = access? slots G v := by
  rw [access?, h, access?]

def StoresIn (slots : List Slot) (p : Function) (s : Slot) (values : List Value) : Prop :=
  ∃ v ∈ values, ∃ x, access? slots p v = some (s, .store x)

def accessTo (slots : List Slot) (p : Function) (s : Slot) (v : Value) : Option Access :=
  match access? slots p v with
  | some (other, access) => if other = s then some access else none
  | none => none

lemma accessTo_eq_some_iff {access : Access} :
    accessTo slots p s v = some access ↔ access? slots p v = some (s, access) := by
  unfold accessTo
  constructor
  · intro h
    split at h
    · next other access' hacc =>
      split at h
      · next heq =>
        cases h
        rw [hacc, heq]
      · cases h
    · cases h
  · intro h
    rw [h]
    simp

lemma stores_iff : stores slots p s b = true ↔ StoresIn slots p s (p.insts b) := by
  have hacc : accessesIn slots p s b = (p.insts b).filterMap (accessTo slots p s) := rfl
  rw [stores, hacc, any_eq_true, StoresIn]
  constructor
  · rintro ⟨access, hmem, hne⟩
    obtain ⟨v, hv, heq⟩ := mem_filterMap.mp hmem
    cases access with
    | load => simp at hne
    | store x => exact ⟨v, hv, x, accessTo_eq_some_iff.mp heq⟩
  · rintro ⟨v, hv, x, heq⟩
    exact ⟨.store x, mem_filterMap.mpr ⟨v, hv, accessTo_eq_some_iff.mpr heq⟩, by simp⟩

/-- A load with no store before it in its block makes the block one that loads first. -/
lemma loadsFirst_of_split {before after : List Value} (hsplit : p.insts b = before ++ v :: after)
    (hload : access? slots p v = some (s, .load)) (hnone : ¬ StoresIn slots p s before) :
    loadsFirst slots p s b = true := by
  have hacc : accessesIn slots p s b = (p.insts b).filterMap (accessTo slots p s) := rfl
  rw [loadsFirst, hacc, hsplit, filterMap_append,
    filterMap_cons_some (accessTo_eq_some_iff.mpr hload)]
  cases hbefore : before.filterMap (accessTo slots p s) with
  | nil => rfl
  | cons access rest =>
    obtain ⟨w, hw, heq⟩ := mem_filterMap.mp (hbefore ▸ mem_cons_self)
    cases access with
    | load => rfl
    | store x => exact absurd ⟨w, hw, x, accessTo_eq_some_iff.mp heq⟩ hnone

lemma exists_split_of_loadsFirst (h : loadsFirst slots p s b = true) :
    ∃ before v after, p.insts b = before ++ v :: after ∧ access? slots p v = some (s, .load) ∧
      ¬ StoresIn slots p s before := by
  have hacc : accessesIn slots p s b = (p.insts b).filterMap (accessTo slots p s) := rfl
  rw [loadsFirst, hacc, head?_filterMap, beq_iff_eq, findSome?_eq_some_iff] at h
  obtain ⟨before, v, after, hsplit, hload, hnone⟩ := h
  refine ⟨before, v, after, hsplit, accessTo_eq_some_iff.mp hload, ?_⟩
  rintro ⟨w, hw, x, hstore⟩
  rw [← accessTo_eq_some_iff, hnone w hw] at hstore
  cases hstore

/-! ### Liveness -/

def unseen (order seen : List Block) : Nat :=
  (order.filter (· ∉ seen)).length

/-- Seeing more of an order leaves less of it. -/
lemma unseen_add {order seen seen' fresh : List Block} (hnodup : order.Nodup)
    (hfresh : fresh.Nodup) (hsub : ∀ b ∈ fresh, b ∈ order ∧ b ∉ seen)
    (hseen : ∀ b, b ∈ seen' ↔ b ∈ seen ∨ b ∈ fresh) :
    unseen order seen' + fresh.length ≤ unseen order seen := by
  have hsubset : order.filter (· ∉ seen') ++ fresh ⊆ order.filter (· ∉ seen) := by
    intro b hb
    rw [mem_filter, decide_eq_true_eq]
    rcases mem_append.mp hb with h | h
    · rw [mem_filter, decide_eq_true_eq, hseen, not_or] at h
      exact ⟨h.1, h.2.1⟩
    · exact hsub b h
  have hall : (order.filter (· ∉ seen') ++ fresh).Nodup := by
    refine nodup_append.mpr ⟨hnodup.filter _, hfresh, fun b hb c hc heq => ?_⟩
    rw [mem_filter, decide_eq_true_eq, hseen, not_or] at hb
    exact hb.2.2 (heq ▸ hc)
  have hle := (subperm_of_subset hall hsubset).length_le
  rwa [length_append] at hle

lemma nodup_eraseDups {α : Type} [BEq α] [LawfulBEq α] (items : List α) :
    items.eraseDups.Nodup := by
  induction hn : items.length using Nat.strong_induction_on generalizing items with
  | _ n ih =>
    cases items with
    | nil => exact nodup_nil
    | cons x items =>
      rw [eraseDups_cons, nodup_cons, mem_eraseDups, mem_filter]
      refine ⟨by simp, ih _ ?_ _ rfl⟩
      have := length_filter_le (fun y => !y == x) items
      rw [length_cons] at hn
      omega

lemma spreadLive_spec {f : Function} (stored : Block → Bool) {order : List Block}
    (hnodup : order.Nodup) (hclosed : ∀ b ∈ order, ∀ q ∈ f.preds b, q ∈ order)
    (fuel : Nat) (live worklist : List Block) (hlive : ∀ b ∈ live, b ∈ order)
    (hwork : ∀ b ∈ worklist, b ∈ live) (hfuel : worklist.length + unseen order live < fuel)
    (hinv : ∀ b ∈ live, b ∈ worklist ∨ ∀ q ∈ f.preds b, stored q = true ∨ q ∈ live) :
    live ⊆ spreadLive f stored fuel live worklist ∧
      ∀ b ∈ spreadLive f stored fuel live worklist, ∀ q ∈ f.preds b,
        stored q = true ∨ q ∈ spreadLive f stored fuel live worklist := by
  induction fuel generalizing live worklist with
  | zero => omega
  | succ fuel ih =>
    cases worklist with
    | nil => exact ⟨fun _ h => h, fun b hb => (hinv b hb).resolve_left (by simp)⟩
    | cons block rest =>
      rw [spreadLive]
      set fresh := ((f.preds block).filter fun pred =>
        !stored pred && pred ∉ live).eraseDups with hfresh
      have hmem : ∀ q, q ∈ fresh ↔ q ∈ f.preds block ∧ stored q = false ∧ q ∉ live := by
        intro q
        rw [hfresh, mem_eraseDups, mem_filter]
        simp
      have hblock := hlive block (hwork block mem_cons_self)
      have horder : ∀ q ∈ fresh, q ∈ order ∧ q ∉ live := fun q hq =>
        ⟨hclosed block hblock q ((hmem q).mp hq).1, ((hmem q).mp hq).2.2⟩
      have hfresh_nodup : fresh.Nodup := nodup_eraseDups _
      have hcount := unseen_add hnodup hfresh_nodup horder fun b => @List.mem_append _ b live fresh
      have hlive' : ∀ b ∈ live ++ fresh, b ∈ order := fun b hb =>
        (mem_append.mp hb).elim (hlive b) fun h => (horder b h).1
      have hwork' : ∀ b ∈ fresh.reverse ++ rest, b ∈ live ++ fresh := by
        intro b hb
        rcases mem_append.mp hb with h | h
        · exact mem_append_right _ (mem_reverse.mp h)
        · exact mem_append_left _ (hwork b (mem_cons_of_mem _ h))
      have hfuel' : (fresh.reverse ++ rest).length + unseen order (live ++ fresh) < fuel := by
        rw [length_cons] at hfuel
        rw [length_append, length_reverse]
        omega
      have hinv' : ∀ b ∈ live ++ fresh, b ∈ fresh.reverse ++ rest ∨
          ∀ q ∈ f.preds b, stored q = true ∨ q ∈ live ++ fresh := by
        intro b hb
        rcases mem_append.mp hb with h | h
        · rcases hinv b h with hw | hq
          · rcases mem_cons.mp hw with rfl | hw
            · refine .inr fun q hq => ?_
              by_cases hs : stored q = true
              · exact .inl hs
              · refine .inr (mem_append.mpr ?_)
                by_cases hl : q ∈ live
                · exact .inl hl
                · exact .inr ((hmem q).mpr ⟨hq, by simpa using hs, hl⟩)
            · exact .inl (mem_append_right _ hw)
          · exact .inr fun q hmemq => (hq q hmemq).imp_right (mem_append_left _)
        · exact .inl (mem_append_left _ (mem_reverse.mpr h))
      obtain ⟨hsub, hdone⟩ := ih (live ++ fresh) (fresh.reverse ++ rest) hlive' hwork' hfuel' hinv'
      exact ⟨fun b hb => hsub (mem_append_left _ hb), hdone⟩

/-- What holds for the blocks of the worklist, and with a block for its predecessors without a
store, holds for all blocks that are found. -/
lemma spreadLive_induction {f : Function} {stored : Block → Bool} {motive : Block → Prop}
    (step : ∀ b, motive b → ∀ q ∈ f.preds b, stored q = false → motive q) (fuel : Nat)
    {live worklist : List Block} (hlive : ∀ b ∈ live, motive b) (hwork : ∀ b ∈ worklist, motive b) :
    ∀ b ∈ spreadLive f stored fuel live worklist, motive b := by
  induction fuel generalizing live worklist with
  | zero => exact hlive
  | succ fuel ih =>
    cases worklist with
    | nil => exact hlive
    | cons block rest =>
      have hfresh : ∀ q ∈ ((f.preds block).filter fun pred =>
          !stored pred && pred ∉ live).eraseDups, motive q := by
        intro q hq
        rw [mem_eraseDups, mem_filter, Bool.and_eq_true, Bool.not_eq_true'] at hq
        exact step block (hwork block mem_cons_self) q hq.1 hq.2.1
      refine ih (fun b hb => (mem_append.mp hb).elim (hlive b) (hfresh b)) fun b hb => ?_
      rcases mem_append.mp hb with hb | hb
      · exact hfresh b (mem_reverse.mp hb)
      · exact hwork b (mem_cons_of_mem _ hb)

/-- The blocks at whose entry a slot is live include those that load it first, and with a block its
predecessors that do not store to the slot. -/
structure LiveSet (slots : List Slot) (p : Function) (entry : Block) (s : Slot)
    (live : List Block) : Prop where
  uses : ∀ b, Reached p entry b → loadsFirst slots p s b = true → b ∈ live
  closed : ∀ b ∈ live, ∀ q ∈ p.preds b, ¬ StoresIn slots p s (p.insts q) → q ∈ live

/-- The fuel suffices if there is a closed list of blocks that is no longer than all blocks. -/
lemma liveBlocks_liveSet {doms : Dominators} (hd : DominatorsOf p entry doms)
    {blocks : List Block} (hnodup : blocks.Nodup) (hlength : blocks.length ≤ p.blocks.size)
    (hreached : ∀ b, Reached p entry b → b ∈ blocks)
    (hpreds : ∀ b ∈ blocks, ∀ q ∈ p.preds b, q ∈ blocks) (s : Slot) :
    LiveSet slots p entry s (liveBlocks slots p doms s) := by
  set uses := doms.order.filter (loadsFirst slots p s) with huses
  have hfilter : unseen blocks uses ≤ blocks.length := length_filter_le _ _
  have huse_mem : ∀ b ∈ uses, b ∈ blocks := fun b hb =>
    hreached b ((hd.mem_order_iff b).mp (mem_filter.mp hb).1)
  obtain ⟨hsub, hclosed⟩ := spreadLive_spec (stores slots p s) hnodup hpreds
    (p.blocks.size + uses.length + 1) uses uses.reverse huse_mem (by simp)
    (by rw [length_reverse]; omega) (fun b hb => .inl (mem_reverse.mpr hb))
  refine ⟨fun b hb hload => ?_, fun b hb q hq hnone => ?_⟩
  · exact hsub (mem_filter.mpr ⟨(hd.mem_order_iff b).mpr hb, hload⟩)
  · exact (hclosed b hb q hq).resolve_left fun h => hnone (stores_iff.mp h)

lemma Pruned.liveSet (hp : Pruned p entry) {doms : Dominators}
    (hd : DominatorsOf p entry doms) (s : Slot) :
    LiveSet slots p entry s (liveBlocks slots p doms s) := by
  refine liveBlocks_liveSet hd hd.order.nodup ?_ (fun b => (hd.mem_order_iff b).mpr)
    (fun b hb q hq => (hd.mem_order_iff q).mpr
      (hp.preds_reached b ((hd.mem_order_iff b).mp hb) q hq)) s
  have hids : (doms.order.map Block.id).Nodup :=
    hd.order.nodup.map fun _ _ h => Block.ext h
  have hsub : doms.order.map Block.id ⊆ List.range p.blocks.size := by
    intro i hi
    obtain ⟨b, hb, rfl⟩ := mem_map.mp hi
    exact mem_range.mpr (hp.blocks_exist b ((hd.mem_order_iff b).mp hb))
  simpa using (subperm_of_subset hids hsub).length_le

end

end SsaLowering.Proofs
