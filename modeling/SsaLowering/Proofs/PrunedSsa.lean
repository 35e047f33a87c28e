import SsaLowering.Proofs.SsaConstruction

/-!
# Phis are placed as in pruned SSA form

A slot needs a phi in the blocks of the iterated dominance frontier of its stores at whose entry it
is live: some path from there loads it before any store to it. The phis are found by following
frontiers through such blocks only. No phi is lost by that: before a block at which the slot is
live, a block of the iterated frontier at which it is not live is followed by another store.
-/

namespace SsaLowering.Proofs

open Ir Ssa List

/-- A block stores to a slot. -/
def StoresTo (f : Function) (s : Slot) (b : Block) : Prop :=
  ∃ v ∈ f.insts b, ∃ x, f.inst? v = some (.store s.address x)

/-- Some path from the entry of a block loads a slot before any store to it. -/
inductive LiveAt (f : Function) (s : Slot) : Block → Prop where
  | here {b : Block} {before after : List Value} {v : Value} {ty : Ty}
      (split : f.insts b = before ++ v :: after)
      (load : f.inst? v = some (.load ty s.address))
      (first : ∀ w ∈ before, ∀ x, f.inst? w ≠ some (.store s.address x)) :
      LiveAt f s b
  | later {b c : Block} (kept : ¬ StoresTo f s b) (next : Edge f b c)
      (rest : LiveAt f s c) : LiveAt f s b

/-- A block is in the iterated dominance frontier of the stores to a slot. -/
def IteratedFrontier (f : Function) (entry : Block) (s : Slot) (b : Block) : Prop :=
  ∃ c, Reached f entry c ∧ StoresTo f s c ∧
    Relation.TransGen (OnFrontier f entry) c b

/-- The recorded predecessors of every block exist and are, among the blocks that can be reached,
those that branch to it. The entry has none. -/
structure ConsistentPreds (f : Function) (entry : Block) : Prop where
  entry_eq : f.entry? = some entry
  exist : BlocksExist f entry
  preds_exist : ∀ b, ∀ q ∈ f.preds b, q.id < f.blocks.size
  preds_iff : ∀ q b, Reached f entry q → (q ∈ f.preds b ↔ Edge f q b)
  entry_first : ∀ q, Reached f entry q → ¬ Edge f q entry

section

variable {p : Function} {entry : Block} {doms : Dominators} {slots : List Slot}
  {homes : List (Slot × Block)} {s : Slot}

/-! ### Liveness -/

lemma storesIn_iff (hdistinct : Distinct slots) (hs : s ∈ slots) {b : Block} :
    StoresIn slots p s (p.insts b) ↔ StoresTo p s b := by
  simp only [StoresIn, StoresTo, access?_eq_store_iff hdistinct, hs, true_and]

lemma ConsistentPreds.predsAgree (h : ConsistentPreds p entry) : PredsAgree p entry :=
  fun q b hq _ => h.preds_iff q b hq

lemma ConsistentPreds.liveSet (h : ConsistentPreds p entry) (hd : DominatorsOf p entry doms)
    (s : Slot) : LiveSet slots p entry s (liveBlocks slots p doms s) := by
  set blocks := (List.range p.blocks.size).map Block.mk
  have hnodup : blocks.Nodup := nodup_range.map fun i j hij => congrArg Block.id hij
  have hmem : ∀ b : Block, b ∈ blocks ↔ b.id < p.blocks.size := by
    intro b
    rw [mem_map]
    exact ⟨fun ⟨i, hi, heq⟩ => heq ▸ mem_range.mp hi, fun hb => ⟨b.id, mem_range.mpr hb, rfl⟩⟩
  refine liveBlocks_liveSet hd hnodup (by simp [blocks]) (fun b hb => (hmem b).mpr (h.exist b hb))
    (fun b _ q hq => (hmem q).mpr ?_) s
  exact h.preds_exist b q hq

lemma ConsistentPreds.mem_liveBlocks_iff (h : ConsistentPreds p entry)
    (hd : DominatorsOf p entry doms) (hdistinct : Distinct slots) (hs : s ∈ slots) {b : Block}
    (hb : Reached p entry b) : b ∈ liveBlocks slots p doms s ↔ LiveAt p s b := by
  constructor
  · -- an unreachable block on the way back has no predecessor that can be reached
    intro hmem
    have huse : ∀ c ∈ doms.order.filter (loadsFirst slots p s), LiveAt p s c := by
      intro c hc
      obtain ⟨before, v, after, hsplit, hload, hnone⟩ :=
        exists_split_of_loadsFirst (mem_filter.mp hc).2
      obtain ⟨-, ty, hinst⟩ := (access?_eq_load_iff hdistinct).mp hload
      refine .here hsplit hinst fun w hw x hstore => hnone ⟨w, hw, x, ?_⟩
      exact (access?_eq_store_iff hdistinct).mpr ⟨hs, hstore⟩
    refine spreadLive_induction (motive := fun c => Reached p entry c → LiveAt p s c)
      (fun c hc q hq hnone hqr => ?_) _ (fun c hc _ => huse c hc)
      (fun c hc _ => huse c (mem_reverse.mp hc)) b hmem hb
    have hedge := (h.preds_iff q c hqr).mp hq
    refine .later (fun hstore => ?_) hedge (hc (hqr.step hedge))
    rw [← storesIn_iff hdistinct hs, ← stores_iff, hnone] at hstore
    cases hstore
  · intro hlive
    have hset : LiveSet slots p entry s (liveBlocks slots p doms s) := h.liveSet hd s
    induction hlive with
    | @here b before after v ty split load first =>
      refine hset.uses b hb (loadsFirst_of_split split
        ((access?_eq_load_iff hdistinct).mpr ⟨hs, ty, load⟩) ?_)
      rintro ⟨w, hw, x, hstore⟩
      exact first w hw x ((access?_eq_store_iff hdistinct).mp hstore).2
    | later kept next rest ih =>
      refine hset.closed _ (ih (hb.step next)) _ ((h.preds_iff _ _ hb).mpr next) fun hstore => ?_
      exact kept ((storesIn_iff hdistinct hs).mp hstore)

/-! ### Nothing is lost -/

section

variable (h : ConsistentPreds p entry) (hd : DominatorsOf p entry doms)
  (hhomes : PhiHomes slots p entry doms slots homes) (hs : s ∈ slots)
include h hd hhomes hs

lemma PhiHomes.mem_of_onFrontier {x y : Block}
    (hx : StoresIn slots p s (p.insts x) ∨ (s, x) ∈ homes) (hxy : OnFrontier p entry x y)
    (hlive : y ∈ liveBlocks slots p doms s) : (s, y) ∈ homes :=
  hhomes.closed s hs x hxy.reached.1 hx y ((hd.mem_frontiers h.predsAgree h.entry_first).mpr hxy)
    hlive

/-- Where a slot is live behind a block, it is live at a dominator of the block, or has a store or a
phi in between, at a block that dominates the block as well. -/
lemma PhiHomes.live_or_defined {x w c : Block} {trail : List Block}
    (hpath : Path (Edge p) entry w trail) (hxw : Dominates (Edge p) entry x w) (hedge : Edge p w c)
    (hlive : c ∈ liveBlocks slots p doms s) :
    x ∈ liveBlocks slots p doms s ∨
      ∃ d, (StoresIn slots p s (p.insts d) ∨ (s, d) ∈ homes) ∧ Dominates (Edge p) entry x d ∧
        Dominates (Edge p) entry d w := by
  induction hpath generalizing c with
  | start =>
    by_cases hstore : StoresIn slots p s (p.insts entry)
    · exact .inr ⟨entry, .inl hstore, hxw, .refl entry⟩
    · rw [mem_singleton.mp (hxw _ .start)]
      exact .inl ((h.liveSet hd s).closed c hlive entry ((h.preds_iff _ c .at_entry).mpr hedge) hstore)
  | @step q w trail before next ih =>
    have hw : Reached p entry w := ⟨_, before.step next⟩
    by_cases hstore : StoresIn slots p s (p.insts w)
    · exact .inr ⟨w, .inl hstore, hxw, .refl w⟩
    have hlive' := (h.liveSet hd s).closed c hlive w ((h.preds_iff w c hw).mpr hedge) hstore
    by_cases hne : x = w
    · exact .inl (hne ▸ hlive')
    rcases ih (hxw.of_edge hne next) next hlive' with hx | ⟨d, hdef, hxd, hdq⟩
    · exact .inl hx
    by_cases hdw : Dominates (Edge p) entry d w
    · exact .inr ⟨d, hdef, hxd, hdw⟩
    · -- the dominance of `d` ends here, so that the block got a phi
      have hfrontier : OnFrontier p entry d w := ⟨⟨q, ⟨_, before⟩, next, hdq⟩, fun hsd => hdw hsd.1⟩
      exact .inr ⟨w, .inr (hhomes.mem_of_onFrontier h hd hs hdef hfrontier hlive'), hxw, .refl w⟩

lemma PhiHomes.mem_of_iterated {c y : Block} (hstore : StoresIn slots p s (p.insts c))
    (hpath : Relation.TransGen (OnFrontier p entry) c y)
    (hlive : y ∈ liveBlocks slots p doms s) : (s, y) ∈ homes := by
  induction hpath with
  | single hxy => exact hhomes.mem_of_onFrontier h hd hs (.inl hstore) hxy hlive
  | @tail x y _ hxy ih =>
    obtain ⟨⟨q, ⟨trail, hq⟩, hedge, hxq⟩, hnot⟩ := id hxy
    rcases hhomes.live_or_defined h hd hs hq hxq hedge hlive with hx | ⟨d, hdef, hxd, hdq⟩
    · exact hhomes.mem_of_onFrontier h hd hs (.inr (ih hx)) hxy hlive
    · refine hhomes.mem_of_onFrontier h hd hs hdef ⟨⟨q, ⟨trail, hq⟩, hedge, hdq⟩, fun hsd => ?_⟩ hlive
      exact hnot (hsd.trans_left hxd (.step ⟨trail, hq⟩ hedge))

lemma PhiHomes.mem_iff (hdistinct : Distinct slots) {b : Block} (hb : Reached p entry b) :
    (s, b) ∈ homes ↔ IteratedFrontier p entry s b ∧ LiveAt p s b := by
  rw [← h.mem_liveBlocks_iff hd hdistinct hs hb]
  constructor
  · intro hmem
    refine ⟨?_, hhomes.needed _ hmem⟩
    obtain ⟨c, ⟨hc, hstore⟩, hpath⟩ := hhomes.origin _ hmem
    refine ⟨c, hc, (storesIn_iff hdistinct hs).mp hstore, Relation.TransGen.mono ?_ c b hpath⟩
    exact fun x y hxy => (hd.mem_frontiers h.predsAgree h.entry_first).mp hxy
  · rintro ⟨⟨c, -, hstore, hpath⟩, hlive⟩
    exact hhomes.mem_of_iterated h hd hs ((storesIn_iff hdistinct hs).mpr hstore) hpath hlive

end

/-- Placing phis inserts into a block that can be reached, for each slot that is promoted, exactly
one phi if the block lies in the iterated dominance frontier of the stores to the slot and the slot
is live at its entry, and none otherwise. -/
theorem phis_form_pruned_ssa (h : ConsistentPreds p entry) :
    ∃ dominators, Dominators.compute p = .ok dominators ∧
      let placed := placePhis (promotable p) p dominators
      ∀ b, Reached p entry b →
        ∃ added : List Value, (placed.function.insts b).Perm (p.insts b ++ added) ∧ added.Nodup ∧
          (∀ phi ∈ added, ∃ s ∈ promotable p, (phi, s) ∈ placed.phis ∧
            placed.function.inst? phi =
              some (.phi s.ty (List.replicate (p.preds b).length s.address))) ∧
          ∀ s ∈ promotable p,
            (IteratedFrontier p entry s b ∧ LiveAt p s b →
              ∃! phi, phi ∈ added ∧ (phi, s) ∈ placed.phis) ∧
            (¬ (IteratedFrontier p entry s b ∧ LiveAt p s b) →
              ∀ phi ∈ added, (phi, s) ∉ placed.phis) := by
  obtain ⟨dominators, hcompute, hd⟩ := compute_dominatorsOf h.entry_eq h.exist h.predsAgree
  obtain ⟨homes, hplaced, hhomes⟩ := placePhis_homes hd (promotable p)
  have hinserted := foldl_insertHome homes fun home hhome =>
    h.exist _ (hhomes.reached hd hhome).1
  refine ⟨dominators, hcompute, ?_⟩
  intro placed b hb
  rw [← hplaced] at hinserted
  have hadded : ∀ {phi : Value} {s : Slot}, phi ∈ newPhis p homes b ∧
      (phi, s) ∈ placed.phis ↔
        ∃ i, homes[i]? = some (s, b) ∧ phi = ⟨p.values.size + i⟩ := by
    intro phi s
    rw [mem_newPhis_iff, hinserted.mem_phis_iff]
    constructor
    · rintro ⟨⟨i, t, hget, rfl⟩, j, c, hget', heq⟩
      obtain rfl : i = j := by simpa using heq
      rw [hget] at hget'
      obtain ⟨rfl, rfl⟩ := Prod.mk.inj (Option.some.inj hget')
      exact ⟨i, hget, rfl⟩
    · rintro ⟨i, hget, rfl⟩
      exact ⟨⟨i, s, hget, rfl⟩, i, b, hget, rfl⟩
  refine ⟨newPhis p homes b, hinserted.insts_perm b, newPhis_nodup p homes b, fun phi hphi => ?_,
    fun s hs => ?_⟩
  · obtain ⟨i, s, hget, rfl⟩ := mem_newPhis_iff.mp hphi
    exact ⟨s, hhomes.slot_mem _ (List.mem_of_getElem? hget), (hadded.mpr ⟨i, hget, rfl⟩).2,
      hinserted.inst_new hget⟩
  · rw [← hhomes.mem_iff h hd hs (distinct_promotable p) hb]
    refine ⟨fun hmem => ?_, fun hnot phi hphi hmem => hnot ?_⟩
    · obtain ⟨i, hget⟩ := mem_iff_getElem?.mp hmem
      refine ⟨⟨p.values.size + i⟩, hadded.mpr ⟨i, hget, rfl⟩, fun phi hphi => ?_⟩
      obtain ⟨j, hget', rfl⟩ := hadded.mp hphi
      have hi := (List.getElem?_eq_some_iff.mp hget).1
      rw [(List.getElem?_inj hi hhomes.nodup).mp (hget.trans hget'.symm)]
    · obtain ⟨i, hget, -⟩ := hadded.mp ⟨hphi, hmem⟩
      exact List.mem_of_getElem? hget

end

lemma choice_consistentPreds : ConsistentPreds choice ⟨0⟩ := by
  have hpreds : ∀ b ∈ choice.layout, ∀ q ∈ choice.layout,
      (q ∈ choice.preds b ↔ b ∈ choice.successors q) := by decide
  have hexist : ∀ b : Block, b ∉ choice.layout → choice.preds b = [] := by
    intro b hb
    have hnone : choice.block? b = none := by
      refine Array.getElem?_eq_none (Nat.le_of_not_lt fun hlt => hb ?_)
      have hall : ∀ i < choice.blocks.size, (⟨i⟩ : Block) ∈ choice.layout := by decide
      exact hall b.id hlt
    rw [Function.preds, hnone]
    rfl
  have hclosed : ∀ q ∈ choice.layout, ∀ b ∈ choice.successors q, b ∈ choice.layout := by decide
  refine ⟨rfl, choice_wellFormed.blocks_exist, fun b q hq => ?_, fun q b hq => ?_,
    fun q => choice_wellFormed.no_edge_to_entry⟩
  · by_cases hb : b ∈ choice.layout
    · have hsize : ∀ b ∈ choice.layout, ∀ q ∈ choice.preds b, q.id < choice.blocks.size := by decide
      exact hsize b hb q hq
    · rw [hexist b hb] at hq
      cases hq
  · by_cases hb : b ∈ choice.layout
    · exact hpreds b hb q (choice_reached hq)
    · rw [hexist b hb]
      exact iff_of_false not_mem_nil fun hedge => hb (hclosed q (choice_reached hq) b hedge)

theorem choice_phis : ConsistentPreds choice ⟨0⟩ ∧ ∃ dominators,
    Dominators.compute choice = .ok dominators ∧
      let placed := placePhis (promotable choice) choice dominators
      ∃ added : List Value, (placed.function.insts ⟨3⟩).Perm (choice.insts ⟨3⟩ ++ added) ∧
        ∃! phi, phi ∈ added ∧ (phi, (⟨⟨1⟩, .i64⟩ : Slot)) ∈ placed.phis := by
  obtain ⟨dominators, hcompute, hplaced⟩ := phis_form_pruned_ssa choice_consistentPreds
  have hedge {q b : Block} (hmem : b ∈ choice.successors q) : Edge choice q b := hmem
  have hleft : Path (Edge choice) ⟨0⟩ ⟨1⟩ [⟨1⟩, ⟨0⟩] := .step .start (hedge (by decide))
  have hright : Path (Edge choice) ⟨0⟩ ⟨3⟩ [⟨3⟩, ⟨2⟩, ⟨0⟩] :=
    .step (.step .start (hedge (by decide))) (hedge (by decide))
  have hfrontier : OnFrontier choice ⟨0⟩ ⟨1⟩ ⟨3⟩ :=
    ⟨⟨⟨1⟩, ⟨_, hleft⟩, hedge (by decide), .refl _⟩, fun h => absurd (h.1 _ hright) (by decide)⟩
  obtain ⟨added, hperm, -, -, hslots⟩ := hplaced ⟨3⟩ ⟨_, hright⟩
  refine ⟨choice_consistentPreds, dominators, hcompute, added, hperm, ?_⟩
  refine (hslots ⟨⟨1⟩, .i64⟩ (by decide)).1 ⟨⟨⟨1⟩, ⟨_, hleft⟩, ⟨⟨4⟩, by decide, ⟨3⟩, rfl⟩,
    .single hfrontier⟩, ?_⟩
  have hsplit : choice.insts ⟨3⟩ = [] ++ ⟨9⟩ :: [⟨10⟩] := rfl
  exact .here hsplit rfl (by simp)

end SsaLowering.Proofs
