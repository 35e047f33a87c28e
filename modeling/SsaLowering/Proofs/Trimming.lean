import SsaLowering.Ssa.Pruning
import SsaLowering.Proofs.Frontier

/-!
# Deleting what cannot be reached

Pruning a well-formed function leaves the blocks that can be reached, with the edges between them
and the arguments of their phis for these edges. The result is well formed, has no other blocks,
and runs as before.
-/

namespace SsaLowering.Proofs

open Ir Ssa List

variable {α β : Type} {f : Function} {v : Value} {live : List Block} {b entry q : Block}

/-! ### Marked elements -/

lemma keepMarked_map (items : List α) (mark : α → Bool) :
    keepMarked items (items.map mark) = items.filter mark := by
  induction items with
  | nil => rfl
  | cons x items ih =>
    rw [keepMarked] at ih
    cases h : mark x <;> simp [keepMarked, h, ih]

/-- Dropping the marked edges drops the arguments that came along them. -/
lemma keepMarked_zip (items : List α) (args : List β) (mark : α → Bool) :
    (items.filter mark).zip (keepMarked args (items.map mark)) =
      (items.zip args).filter fun pair => mark pair.1 := by
  induction items generalizing args with
  | nil => rfl
  | cons x items ih =>
    cases args with
    | nil => simp [keepMarked]
    | cons y args =>
      specialize ih args
      rw [keepMarked] at ih
      cases h : mark x <;> simp [keepMarked, h, ih]

lemma length_keepMarked (items : List α) (args : List β) (mark : α → Bool)
    (h : args.length = items.length) :
    (keepMarked args (items.map mark)).length = (items.filter mark).length := by
  induction items generalizing args with
  | nil =>
    rw [length_eq_zero_iff.mp h]
    rfl
  | cons x items ih =>
    cases args with
    | nil => cases h
    | cons y args =>
      specialize ih args (by simpa using h)
      rw [keepMarked] at ih
      cases hx : mark x <;> simp [keepMarked, hx, ih]

lemma keepMarked_all (items : List α) (args : List β) (mark : α → Bool)
    (h : args.length = items.length) (hall : ∀ x ∈ items, mark x = true) :
    keepMarked args (items.map mark) = args := by
  induction items generalizing args with
  | nil =>
    rw [length_eq_zero_iff.mp h]
    rfl
  | cons x items ih =>
    cases args with
    | nil => cases h
    | cons y args =>
      specialize ih args (by simpa using h) fun z hz => hall z (mem_cons_of_mem _ hz)
      rw [keepMarked] at ih
      simp [keepMarked, hall x mem_cons_self, ih]

/-! ### Clearing blocks -/

lemma clearBlock_block? (g : Function) (block c : Block) :
    (clearBlock g block).block? c =
      if c = block then (g.block? c).map fun info => { info with preds := [], insts := [] }
      else g.block? c := by
  unfold clearBlock
  obtain ⟨changed, heq, -⟩ := Function.foldl_modifyValue_frame
    (g.modifyBlock block fun info => { info with preds := [], insts := [] })
    (g.insts block) fun _ info => { info with block := none }
  rw [heq]
  exact Function.block?_modifyBlock g block c _

lemma clearBlock_inst? (g : Function) (block : Block) (v : Value) :
    (clearBlock g block).inst? v = g.inst? v :=
  Function.map_value?_foldl _ ValueInfo.inst (g.insts block)
    (fun _ info => { info with block := none }) (fun _ _ => rfl) v

/-- The parts of a function that pruning does not look into. -/
structure SameFrame (f g : Function) : Prop where
  layout : g.layout = f.layout
  params : g.params = f.params
  ret : g.ret = f.ret
  blocks_size : g.blocks.size = f.blocks.size
  values_size : g.values.size = f.values.size

lemma SameFrame.trans {g h : Function} (hfg : SameFrame f g) (hgh : SameFrame g h) :
    SameFrame f h where
  layout := hgh.layout.trans hfg.layout
  params := hgh.params.trans hfg.params
  ret := hgh.ret.trans hfg.ret
  blocks_size := hgh.blocks_size.trans hfg.blocks_size
  values_size := hgh.values_size.trans hfg.values_size

lemma SameFrame.refl (f : Function) : SameFrame f f :=
  ⟨rfl, rfl, rfl, rfl, rfl⟩

lemma SameFrame.foldl_modifyValue (f : Function) (values : List Value)
    (change : Value → ValueInfo → ValueInfo) :
    SameFrame f (values.foldl (fun f value => f.modifyValue value (change value)) f) := by
  obtain ⟨changed, heq, hsize⟩ := f.foldl_modifyValue_frame values change
  rw [heq]
  exact ⟨rfl, rfl, rfl, rfl, hsize⟩

lemma SameFrame.modifyBlock (f : Function) (block : Block) (change : BlockInfo → BlockInfo) :
    SameFrame f (f.modifyBlock block change) :=
  ⟨rfl, rfl, rfl, Array.size_modify, rfl⟩

lemma clearBlock_frame (g : Function) (block : Block) :
    SameFrame g (clearBlock g block) :=
  (SameFrame.modifyBlock g block _).trans (.foldl_modifyValue _ _ _)

section Cleared

variable (g : Function) (dead : List Block)

lemma cleared_frame : SameFrame g (dead.foldl clearBlock g) := by
  induction dead generalizing g with
  | nil => exact .refl g
  | cons block dead ih => exact (clearBlock_frame g block).trans (ih _)

lemma cleared_inst? (v : Value) : (dead.foldl clearBlock g).inst? v = g.inst? v := by
  induction dead generalizing g with
  | nil => rfl
  | cons block dead ih => rw [foldl_cons, ih, clearBlock_inst?]

lemma cleared_block? {c : Block} (hc : c ∉ dead) :
    (dead.foldl clearBlock g).block? c = g.block? c := by
  induction dead generalizing g with
  | nil => rfl
  | cons block dead ih =>
    rw [mem_cons, not_or] at hc
    rw [foldl_cons, ih _ hc.2, clearBlock_block?, if_neg hc.1]

lemma cleared_value? (hv : ∀ b ∈ dead, v ∉ g.insts b) :
    (dead.foldl clearBlock g).value? v = g.value? v := by
  induction dead generalizing g with
  | nil => rfl
  | cons block dead ih =>
    rw [foldl_cons, ih]
    · exact Function.value?_foldl_of_not_mem _ _ (fun _ info => { info with block := none })
        (hv block mem_cons_self)
    · intro b hb hmem
      rw [Function.insts, clearBlock_block?] at hmem
      split at hmem
      · cases h : g.block? b <;> simp [h] at hmem
      · exact hv b (mem_cons_of_mem _ hb) hmem

end Cleared

/-! ### Dropping edges -/

section Dropped

variable (doms : Dominators)

def PhiArity (g : Function) (b : Block) : Prop :=
  ∀ v ∈ g.phis b, ∀ ty args, g.inst? v = some (.phi ty args) →
    args.length = (g.preds b).length

section

variable (g : Function)
include g

lemma dropEdges_frame (block : Block) :
    SameFrame g (dropEdges doms g block) := by
  unfold dropEdges
  dsimp only
  split
  · exact .refl g
  · exact (SameFrame.foldl_modifyValue _ _ _).trans (.modifyBlock _ _ _)

lemma dropEdges_block? (block c : Block) : (dropEdges doms g block).block? c =
      if c = block then (g.block? c).map fun info =>
        { info with preds := info.preds.filter doms.isReachable }
      else g.block? c := by
  have hpreds : ∀ info, g.block? block = some info → g.preds block = info.preds := by
    intro info h
    rw [Function.preds, h]
    rfl
  unfold dropEdges
  dsimp only
  split
  · next hall =>
    split
    · next hc =>
      subst hc
      cases h : g.block? c with
      | none => rfl
      | some info =>
        rw [hpreds info h] at hall
        have hself : info.preds.filter doms.isReachable = info.preds :=
          filter_eq_self.mpr (by simpa using hall)
        rw [Option.map_some, hself]
    · rfl
  · obtain ⟨changed, heq, -⟩ := g.foldl_modifyValue_frame (g.phis block)
      fun _ info => { info with
        inst := dropArgs ((g.preds block).map doms.isReachable) info.inst }
    rw [heq, Function.block?_modifyBlock]
    split
    · next hc =>
      subst hc
      rw [keepMarked_map]
      cases h : g.block? c with
      | none => simp [Function.block?] at h ⊢; exact h
      | some info =>
        have h' : Function.block? { g with values := changed } c = some info := h
        rw [h', Option.map_some, Option.map_some, hpreds info h]
    · rfl

lemma dropEdges_value?_of_not_mem (block : Block) (hv : v ∉ g.phis block) :
    (dropEdges doms g block).value? v = g.value? v := by
  unfold dropEdges
  dsimp only
  split
  · rfl
  · rw [Function.value?_modifyBlock]
    exact g.value?_foldl_of_not_mem _ (fun _ info => { info with
      inst := dropArgs ((g.preds block).map doms.isReachable) info.inst }) hv

lemma dropEdges_value?_of_mem (block : Block) (hnodup : (g.phis block).Nodup)
    (harity : PhiArity g block) (hv : v ∈ g.phis block) :
    (dropEdges doms g block).value? v = (g.value? v).map fun info =>
      { info with
        inst := dropArgs ((g.preds block).map doms.isReachable) info.inst } := by
  unfold dropEdges
  dsimp only
  split
  · next hall =>
    cases h : g.value? v with
    | none => rfl
    | some info =>
      have hinst : g.inst? v = some info.inst := by rw [Function.inst?, h]; rfl
      have hself : dropArgs ((g.preds block).map doms.isReachable) info.inst =
          info.inst := by
        cases hi : info.inst with
        | phi ty args =>
          rw [dropArgs, keepMarked_all _ _ _ (harity v hv ty args (hi ▸ hinst))]
          simpa using hall
        | _ => rfl
      rw [Option.map_some, hself]
  · rw [Function.value?_modifyBlock, Function.value?_foldl_modifyValue _ _ hnodup
      (fun _ info => { info with
        inst := dropArgs ((g.preds block).map doms.isReachable) info.inst }),
      if_pos hv]

lemma dropEdges_insts (block c : Block) :
    (dropEdges doms g block).insts c = g.insts c := by
  rw [Function.insts, dropEdges_block?, Function.insts]
  split
  · rw [Option.map_map]
    rfl
  · rfl

lemma dropEdges_instIs (block : Block) (hnodup : (g.phis block).Nodup)
    (harity : PhiArity g block) (v : Value) :
    (dropEdges doms g block).instIs Inst.isPhi v = g.instIs Inst.isPhi v := by
  unfold Function.instIs Function.inst?
  by_cases hv : v ∈ g.phis block
  · rw [dropEdges_value?_of_mem doms g block hnodup harity hv]
    cases g.value? v with
    | none => rfl
    | some info =>
      obtain ⟨inst, _, _, _⟩ := info
      cases inst <;> rfl
  · rw [dropEdges_value?_of_not_mem doms g block hv]

lemma dropEdges_phis (block : Block) (hnodup : (g.phis block).Nodup)
    (harity : PhiArity g block) (c : Block) :
    (dropEdges doms g block).phis c = g.phis c :=
  Function.phis_congr (dropEdges_insts doms g block c)
    fun v _ => dropEdges_instIs doms g block hnodup harity v

lemma dropped_frame (live : List Block) :
    SameFrame g (live.foldl (dropEdges doms) g) := by
  induction live generalizing g with
  | nil => exact .refl g
  | cons block live ih => exact (dropEdges_frame doms g block).trans (ih _)

lemma dropped_block? (hlive : live.Nodup) (c : Block) :
    (live.foldl (dropEdges doms) g).block? c =
      if c ∈ live then (g.block? c).map fun info =>
        { info with preds := info.preds.filter doms.isReachable }
      else g.block? c := by
  induction live generalizing g with
  | nil => simp
  | cons block live ih =>
    obtain ⟨hb, hrest⟩ := nodup_cons.mp hlive
    rw [foldl_cons, ih _ hrest, dropEdges_block?]
    by_cases hc : c = block
    · subst hc
      simp [hb]
    · simp [hc]

end

variable {g : Function}

/-- Blocks whose phis can be edited one block after the other. -/
structure PhisApart (g : Function) (blocks : List Block) : Prop where
  nodup : ∀ b ∈ blocks, (g.phis b).Nodup
  arity : ∀ b ∈ blocks, PhiArity g b
  apart : ∀ b ∈ blocks, ∀ c ∈ blocks, ∀ v ∈ g.phis b, v ∈ g.phis c → b = c

lemma PhisApart.dropEdges {block : Block} (h : PhisApart g (block :: live))
    (hb : block ∉ live) : PhisApart (dropEdges doms g block) live := by
  have hphis := dropEdges_phis doms g block (h.nodup _ mem_cons_self)
    (h.arity _ mem_cons_self)
  refine ⟨fun b hbl => ?_, fun b hbl v hv ty args hinst => ?_, fun b hbl c hcl => ?_⟩
  · rw [hphis]
    exact h.nodup b (mem_cons_of_mem _ hbl)
  · have hne : b ≠ block := fun heq => hb (heq ▸ hbl)
    rw [hphis] at hv
    have hnot : v ∉ g.phis block := fun hv' =>
      hne (h.apart b (mem_cons_of_mem _ hbl) block mem_cons_self v hv hv')
    rw [Function.inst?, dropEdges_value?_of_not_mem doms g block hnot] at hinst
    rw [h.arity b (mem_cons_of_mem _ hbl) v hv ty args hinst]
    refine congrArg List.length (Function.preds_congr ?_).symm
    rw [dropEdges_block?, if_neg hne]
  · rw [hphis, hphis]
    exact h.apart b (mem_cons_of_mem _ hbl) c (mem_cons_of_mem _ hcl)

lemma dropped_value?_of_not_mem (hlive : live.Nodup) (h : PhisApart g live)
    (hv : ∀ b ∈ live, v ∉ g.phis b) :
    (live.foldl (dropEdges doms) g).value? v = g.value? v := by
  induction live generalizing g with
  | nil => rfl
  | cons block live ih =>
    obtain ⟨hb, hrest⟩ := nodup_cons.mp hlive
    rw [foldl_cons, ih hrest (h.dropEdges doms hb),
      dropEdges_value?_of_not_mem doms _ _ (hv block mem_cons_self)]
    intro b hbl
    rw [dropEdges_phis doms _ _ (h.nodup _ mem_cons_self) (h.arity _ mem_cons_self)]
    exact hv b (mem_cons_of_mem _ hbl)

lemma dropped_value?_of_mem (hlive : live.Nodup) (h : PhisApart g live) (hbl : b ∈ live)
    (hv : v ∈ g.phis b) :
    (live.foldl (dropEdges doms) g).value? v = (g.value? v).map fun info =>
      { info with
        inst := dropArgs ((g.preds b).map doms.isReachable) info.inst } := by
  induction live generalizing g with
  | nil => cases hbl
  | cons block live ih =>
    obtain ⟨hb, hrest⟩ := nodup_cons.mp hlive
    have hphis := dropEdges_phis doms g block (h.nodup _ mem_cons_self)
      (h.arity _ mem_cons_self)
    rw [foldl_cons]
    by_cases heq : b = block
    · subst heq
      rw [dropped_value?_of_not_mem doms hrest (h.dropEdges doms hb),
        dropEdges_value?_of_mem doms _ _ (h.nodup _ mem_cons_self)
          (h.arity _ mem_cons_self) hv]
      intro c hc hmem
      rw [hphis] at hmem
      exact hb (h.apart b mem_cons_self c (mem_cons_of_mem _ hc) v hv hmem ▸ hc)
    · have hmem : b ∈ live := (mem_cons.mp hbl).resolve_left heq
      have hnot : v ∉ g.phis block := fun hv' =>
        heq (h.apart b hbl block mem_cons_self v hv hv')
      rw [ih hrest (h.dropEdges doms hb) hmem (hphis b ▸ hv),
        dropEdges_value?_of_not_mem doms _ _ hnot]
      have hpreds : (dropEdges doms g block).preds b = g.preds b :=
        Function.preds_congr (by rw [dropEdges_block?, if_neg heq])
      rw [hpreds]

lemma dropped_recorded (g : Function) (live : List Block) (v : Value) :
    ((live.foldl (dropEdges doms) g).value? v).map ValueInfo.block =
      (g.value? v).map ValueInfo.block := by
  induction live generalizing g with
  | nil => rfl
  | cons block live ih =>
    rw [foldl_cons, ih]
    unfold dropEdges
    dsimp only
    split
    · rfl
    · exact g.map_value?_foldl ValueInfo.block (g.phis block)
        (fun _ info => { info with
          inst := dropArgs ((g.preds block).map doms.isReachable) info.inst })
        (fun _ _ => rfl) v

end Dropped

/-! ### The pruned function -/

/-- What pruning leaves of a function. -/
structure Trimmed (f p : Function) (entry : Block) (live : Block → Bool) : Prop where
  live_iff : ∀ b, live b = true ↔ Reached f entry b
  layout_eq : p.layout = f.layout.filter live
  params_eq : p.params = f.params
  ret_eq : p.ret = f.ret
  blocks_size : p.blocks.size = f.blocks.size
  insts_eq : ∀ b, Reached f entry b → p.insts b = f.insts b
  preds_eq : ∀ b, Reached f entry b → p.preds b = (f.preds b).filter live
  inst_eq : ∀ v, (∀ b, Reached f entry b → v ∉ f.phis b) → p.inst? v = f.inst? v
  phi_eq : ∀ b, Reached f entry b → ∀ v ∈ f.phis b,
    p.inst? v = (f.inst? v).map (dropArgs ((f.preds b).map live))
  recorded_eq : ∀ v, (∀ b ∈ f.layout, ¬ Reached f entry b → v ∉ f.insts b) →
    (p.value? v).map ValueInfo.block = (f.value? v).map ValueInfo.block

lemma WellFormed.phisApart {g : Function} (hf : WellFormed g entry)
    {blocks : List Block} (hblocks : ∀ b ∈ blocks, Reached g entry b) : PhisApart g blocks := by
  refine ⟨fun b hb => ?_, fun b hb => hf.phi_arity b (hblocks b hb), fun b hb c hc v hv hv' => ?_⟩
  · exact (hf.insts_nodup b (hblocks b hb)).sublist (takeWhile_sublist _)
  · exact hf.home_unique b c (hblocks b hb) (hblocks c hc) v (Function.phis_subset _ hv)
      (Function.phis_subset _ hv')

/-- Where all recorded edges come from blocks that stay, nothing is dropped. -/
lemma Trimmed.refl (hf : WellFormed f entry) {live : Block → Bool}
    (hlive : ∀ b, live b = true ↔ Reached f entry b) (hall : ∀ b ∈ f.layout, live b = true) :
    Trimmed f f entry live where
  live_iff := hlive
  layout_eq := (filter_eq_self.mpr hall).symm
  params_eq := rfl
  ret_eq := rfl
  blocks_size := rfl
  insts_eq _ _ := rfl
  preds_eq b hb := (filter_eq_self.mpr fun p hp => hall p (hf.preds_listed hb hp)).symm
  inst_eq _ _ := rfl
  phi_eq b hb v hv := by
    cases h : f.inst? v with
    | none => rfl
    | some inst =>
      cases inst with
      | phi ty args =>
        rw [Option.map_some, dropArgs, keepMarked_all _ _ _ (hf.phi_arity b hb v hv ty args h)]
        exact fun p hp => hall p (hf.preds_listed hb hp)
      | _ => rfl
  recorded_eq _ _ := rfl

lemma trimmed_of_dropped (hf : WellFormed f entry) {doms : Dominators}
    (hd : DominatorsOf f entry doms) :
    Trimmed f { (f.layout.filter doms.isReachable).foldl (dropEdges doms)
      ((f.layout.filter (!doms.isReachable ·)).foldl clearBlock f) with
        layout := f.layout.filter doms.isReachable } entry doms.isReachable := by
  have hreach := hd.isReachable_iff
  set live := f.layout.filter doms.isReachable with hlive
  set dead := f.layout.filter (!doms.isReachable ·) with hdead
  have hlive_mem : ∀ b, b ∈ live ↔ Reached f entry b := by
    intro b
    rw [hlive, mem_filter, hreach]
    exact ⟨And.right, fun h => ⟨hf.listed b h, h⟩⟩
  have hdead_mem : ∀ b, b ∈ dead ↔ b ∈ f.layout ∧ ¬ Reached f entry b := by
    intro b
    rw [hdead, mem_filter, ← hreach, Bool.not_eq_true']
    simp
  have hnodup : live.Nodup := hf.layout_nodup.filter _
  have hframe := (cleared_frame f dead).trans
    (dropped_frame doms (dead.foldl clearBlock f) live)
  have hclear : ∀ b, Reached f entry b → (dead.foldl clearBlock f).block? b = f.block? b :=
    fun b hb => cleared_block? f dead fun h => ((hdead_mem b).mp h).2 hb
  have hphis : ∀ b, Reached f entry b → (dead.foldl clearBlock f).phis b = f.phis b :=
    fun b hb => Function.phis_congr (Function.insts_congr (hclear b hb)) fun v _ => by
      rw [Function.instIs, cleared_inst?, Function.instIs]
  have happart : PhisApart (dead.foldl clearBlock f) live := by
    have h := hf.phisApart fun b hb => (hlive_mem b).mp hb
    refine ⟨fun b hb => ?_, fun b hb v hv ty args hinst => ?_, fun b hb c hc v hv hv' => ?_⟩
    · rw [hphis b ((hlive_mem b).mp hb)]
      exact h.nodup b hb
    · rw [hphis b ((hlive_mem b).mp hb)] at hv
      rw [cleared_inst?] at hinst
      rw [Function.preds_congr (hclear b ((hlive_mem b).mp hb))]
      exact h.arity b hb v hv ty args hinst
    · rw [hphis b ((hlive_mem b).mp hb)] at hv
      rw [hphis c ((hlive_mem c).mp hc)] at hv'
      exact h.apart b hb c hc v hv hv'
  set joined := live.foldl (dropEdges doms) (dead.foldl clearBlock f) with hjoined
  have hblock : ∀ b, Reached f entry b → joined.block? b = (f.block? b).map fun info =>
      { info with preds := info.preds.filter doms.isReachable } := by
    intro b hb
    rw [hjoined, dropped_block? doms _ hnodup, if_pos ((hlive_mem b).mpr hb), hclear b hb]
  refine ⟨hreach, rfl, hframe.params, hframe.ret, hframe.blocks_size, fun b hb => ?_,
    fun b hb => ?_, fun v hv => ?_, fun b hb v hv => ?_, fun v hv => ?_⟩
  · change joined.insts b = _
    rw [Function.insts, hblock b hb, Option.map_map]
    rfl
  · change joined.preds b = _
    rw [Function.preds, hblock b hb, Option.map_map, Function.preds]
    cases f.block? b <;> rfl
  · change (joined.value? v).map _ = _
    rw [hjoined, dropped_value?_of_not_mem doms hnodup happart fun b hb => ?_]
    · exact cleared_inst? f dead v
    · rw [hphis b ((hlive_mem b).mp hb)]
      exact hv b ((hlive_mem b).mp hb)
  · change (joined.value? v).map _ = _
    rw [hjoined, dropped_value?_of_mem doms hnodup happart ((hlive_mem b).mpr hb)
      (hphis b hb ▸ hv), Function.preds_congr (hclear b hb), Option.map_map,
      ← cleared_inst? f dead v, Function.inst?, Option.map_map]
    rfl
  · change (joined.value? v).map _ = _
    rw [hjoined, dropped_recorded, cleared_value? f dead fun b hb => ?_]
    exact hv b ((hdead_mem b).mp hb).1 ((hdead_mem b).mp hb).2

lemma prune_trimmed (hf : WellFormed f entry) :
    ∃ count p live, prune f = .ok (count, p) ∧ Trimmed f p entry live := by
  obtain ⟨doms, hcompute, hd⟩ :=
    compute_dominatorsOf hf.entry_eq hf.blocks_exist hf.predsAgree
  unfold prune
  rw [hcompute]
  dsimp only [bind, Except.bind]
  rw [partition_eq_filter_filter]
  split
  · next hempty =>
    refine ⟨0, f, doms.isReachable, rfl, .refl hf hd.isReachable_iff fun b hb => ?_⟩
    simpa using filter_eq_nil_iff.mp (isEmpty_iff.mp hempty) b hb
  · exact ⟨_, _, _, rfl, trimmed_of_dropped hf hd⟩

namespace Trimmed

variable {p : Function} {live : Block → Bool}

section

variable (h : Trimmed f p entry live) (hf : WellFormed f entry) (hb : Reached f entry b)
include h hf hb

lemma inst?_of_mem (hv : v ∈ f.insts b) :
    p.inst? v = (f.inst? v).map (dropArgs ((f.preds b).map live)) := by
  by_cases hphi : v ∈ f.phis b
  · exact h.phi_eq b hb v hphi
  · have hother : ∀ c, Reached f entry c → v ∉ f.phis c := by
      intro c hc hvc
      obtain rfl := hf.home_unique b c hb hc v hv (f.phis_subset hvc)
      exact hphi hvc
    rw [h.inst_eq v hother]
    rw [← f.phis_append_afterPhis b, mem_append] at hv
    have hnot := hf.phis_first b hb v (hv.resolve_left hphi)
    cases hi : f.inst? v with
    | none => rfl
    | some inst =>
      cases inst with
      | phi ty args => simp [Function.instIs, hi, Inst.isPhi] at hnot
      | _ => rfl

/-- Tests that do not look at the arguments of a phi have the same result. -/
lemma instIs_of_mem (hv : v ∈ f.insts b) {property : Inst → Bool}
    (hproperty : ∀ marks inst, property (dropArgs marks inst) = property inst) :
    p.instIs property v = f.instIs property v := by
  rw [Function.instIs, h.inst?_of_mem hf hb hv, Function.instIs]
  cases f.inst? v with
  | none => rfl
  | some inst => exact hproperty _ inst

lemma phis_eq : p.phis b = f.phis b := by
  refine Function.phis_congr (h.insts_eq b hb) fun v hv => ?_
  refine h.instIs_of_mem hf hb (h.insts_eq b hb ▸ hv) fun marks inst => ?_
  cases inst <;> rfl

lemma afterPhis_eq : p.afterPhis b = f.afterPhis b := by
  rw [Function.afterPhis, h.insts_eq b hb, h.phis_eq hf hb, Function.afterPhis]

lemma successors_eq : p.successors b = f.successors b := by
  refine Function.successors_congr (by rw [h.insts_eq b hb]) fun v hv => ?_
  rw [h.insts_eq b hb] at hv
  rw [h.inst?_of_mem hf hb (mem_of_getLast? hv), Option.map_map]
  congr 1
  funext inst
  cases inst <;> rfl

end

section

variable (h : Trimmed f p entry live) (hf : WellFormed f entry)
include h hf

lemma path_iff {trail : List Block} : Path (Edge f) entry b trail ↔ Path (Edge p) entry b trail :=
  Path.congr fun _ _ hq => by rw [Edge, Edge, h.successors_eq hf hq]

lemma reached_iff (b : Block) : Reached p entry b ↔ Reached f entry b :=
  exists_congr fun _ => (h.path_iff hf).symm

lemma preds_reached (hb : Reached p entry b) (hq : q ∈ p.preds b) : Reached p entry q := by
  rw [h.preds_eq b ((h.reached_iff hf b).mp hb)] at hq
  exact (h.reached_iff hf q).mpr ((h.live_iff q).mp (mem_filter.mp hq).2)

lemma layout_reached (hb : b ∈ p.layout) : Reached p entry b := by
  rw [h.layout_eq] at hb
  exact (h.reached_iff hf b).mpr ((h.live_iff b).mp (mem_filter.mp hb).2)

lemma edgeSources_eq (b : Block) : p.edgeSources b = (f.edgeSources b).filter live := by
  unfold Function.edgeSources
  rw [filter_flatMap, h.layout_eq]
  have hsucc : ∀ c ∈ f.layout, live c = true → p.successors c = f.successors c :=
    fun c _ hc => h.successors_eq hf ((h.live_iff c).mp hc)
  generalize f.layout = layout at hsucc
  induction layout with
  | nil => rfl
  | cons x layout ih =>
    specialize ih fun c hc => hsucc c (mem_cons_of_mem _ hc)
    rw [flatMap_cons, ← ih]
    cases hx : live x with
    | false => rw [filter_cons_of_neg (by simp [hx]), filter_replicate, hx]; rfl
    | true =>
      rw [filter_cons_of_pos hx, flatMap_cons, hsucc x mem_cons_self hx,
        filter_replicate, hx]
      rfl

lemma definedBefore {place : Nat} {w : Value} (hw : DefinedBefore f entry w b place) :
    DefinedBefore p entry w b place := by
  intro earlier hpath
  rw [← h.path_iff hf] at hpath
  rw [h.insts_eq b ⟨_, hpath⟩]
  refine (hw earlier hpath).imp_right fun ⟨d, hd, hwd⟩ => ⟨d, hd, ?_⟩
  rwa [h.insts_eq d (hpath.reachable_of_mem (mem_cons_of_mem _ hd))]

lemma definedBy {w : Value} (hw : DefinedBy f entry w b) : DefinedBy p entry w b := by
  intro trail hpath
  rw [← h.path_iff hf] at hpath
  obtain ⟨d, hd, hwd⟩ := hw trail hpath
  exact ⟨d, hd, (h.insts_eq d (hpath.reachable_of_mem hd)).symm ▸ hwd⟩

lemma entry_eq : p.entry? = some entry := by
  have hlive : live entry = true := (h.live_iff entry).mpr .at_entry
  have hhead := hf.entry_eq
  rw [Function.entry?, head?_eq_some_iff] at hhead
  obtain ⟨rest, hrest⟩ := hhead
  rw [Function.entry?, h.layout_eq, hrest, filter_cons_of_pos hlive, head?_cons]

lemma wellFormed : WellFormed p entry := by
  have hreach := h.reached_iff hf
  have hinsts : ∀ b, Reached p entry b → p.insts b = f.insts b :=
    fun b hb => h.insts_eq b ((hreach b).mp hb)
  have hinst : ∀ b, Reached p entry b → ∀ v ∈ p.insts b,
      p.inst? v = (f.inst? v).map (dropArgs ((f.preds b).map live)) :=
    fun b hb v hv => h.inst?_of_mem hf ((hreach b).mp hb) (hinsts b hb ▸ hv)
  have hsame : ∀ {property : Inst → Bool}, (∀ marks inst,
      property (dropArgs marks inst) = property inst) → ∀ b, Reached p entry b → ∀ v ∈ p.insts b,
        p.instIs property v = f.instIs property v :=
    fun hproperty b hb v hv => h.instIs_of_mem hf ((hreach b).mp hb) (hinsts b hb ▸ hv) hproperty
  have hphi : ∀ marks inst, (dropArgs marks inst).isPhi = inst.isPhi := by
    intro marks inst
    cases inst <;> rfl
  have hterm : ∀ marks inst, (dropArgs marks inst).isTerminator = inst.isTerminator := by
    intro marks inst
    cases inst <;> rfl
  have hparam : ∀ marks inst, (dropArgs marks inst).isParam = inst.isParam := by
    intro marks inst
    cases inst <;> rfl
  have hafter : ∀ b v, v ∈ p.afterPhis b → v ∈ p.insts b := fun b v hv =>
    p.phis_append_afterPhis b ▸ mem_append_right _ hv
  have hentry : Reached p entry entry := .at_entry
  refine {
    entry_eq := h.entry_eq hf
    layout_nodup := h.layout_eq ▸ hf.layout_nodup.filter _
    listed := fun b hb => ?_
    blocks_exist := fun b hb => ?_
    values_exist := fun b hb v hv => ?_
    insts_nodup := fun b hb => hinsts b hb ▸ hf.insts_nodup b ((hreach b).mp hb)
    home_unique := fun b c hb hc v hvb hvc => ?_
    terminated := fun b hb => ?_
    terminator_last := fun b hb v hv => ?_
    preds_perm := fun b hb => ?_
    entry_preds := ?_
    phis_first := fun b hb v hv => ?_
    phi_arity := fun b hb v hv ty args hi => ?_
    params_lead := ?_
    params_param := fun v hv => ?_
    params_only := fun b hb v hv hi => ?_
    defined := fun b hb place v inst hget hi hnot w hw => ?_
    phi_defined := fun b hb v hv ty args hi e he hreached => ?_
    alloca_entry := fun b hb v hv ty pinned hi => ?_ }
  · rw [h.layout_eq, mem_filter, h.live_iff]
    exact ⟨hf.listed b ((hreach b).mp hb), (hreach b).mp hb⟩
  · rw [h.blocks_size]
    exact hf.blocks_exist b ((hreach b).mp hb)
  · rw [hinst b hb v hv, Option.isSome_map]
    exact hf.values_exist b ((hreach b).mp hb) v (hinsts b hb ▸ hv)
  · exact hf.home_unique b c ((hreach b).mp hb) ((hreach c).mp hc) v (hinsts b hb ▸ hvb)
      (hinsts c hc ▸ hvc)
  · have hlast := hf.terminated b ((hreach b).mp hb)
    rw [Function.terminator?_isSome_iff] at hlast ⊢
    obtain ⟨v, hv, hist⟩ := hlast
    rw [← hinsts b hb] at hv
    exact ⟨v, hv, (hsame hterm b hb v (mem_of_getLast? hv)).trans hist⟩
  · rw [hsame hterm b hb v (mem_of_mem_dropLast hv)]
    exact hf.terminator_last b ((hreach b).mp hb) v (hinsts b hb ▸ hv)
  · rw [h.preds_eq b ((hreach b).mp hb), h.edgeSources_eq hf]
    exact (hf.preds_perm b ((hreach b).mp hb)).filter live
  · rw [h.preds_eq entry .at_entry, hf.entry_preds, filter_nil]
  · rw [hsame hphi b hb v (hafter b v hv)]
    exact hf.phis_first b ((hreach b).mp hb) v (h.afterPhis_eq hf ((hreach b).mp hb) ▸ hv)
  · rw [h.phis_eq hf ((hreach b).mp hb)] at hv
    rw [h.phi_eq b ((hreach b).mp hb) v hv] at hi
    cases hfi : f.inst? v with
    | none => simp [hfi] at hi
    | some inst =>
      cases inst with
      | phi ty' args' =>
        rw [hfi, Option.map_some, dropArgs, Option.some.injEq, Inst.phi.injEq] at hi
        rw [← hi.2, h.preds_eq b ((hreach b).mp hb)]
        exact length_keepMarked _ _ _ (hf.phi_arity b ((hreach b).mp hb) v hv ty' args' hfi)
      | _ => simp [hfi, dropArgs] at hi
  · rw [h.params_eq, hinsts entry hentry]
    exact hf.params_lead
  · rw [h.params_eq] at hv
    rw [hsame hparam entry hentry v (hinsts entry hentry ▸ hf.params_lead.subset hv)]
    exact hf.params_param v hv
  · rw [h.params_eq]
    rw [hsame hparam b hb v hv] at hi
    exact hf.params_only b ((hreach b).mp hb) v (hinsts b hb ▸ hv) hi
  · have hv := mem_of_getElem? hget
    rw [hinst b hb v hv] at hi
    obtain ⟨inst', hfi, hdrop⟩ := Option.map_eq_some_iff.mp hi
    have hsameInst : inst' = inst := by
      cases inst' with
      | phi ty args => rw [← hdrop] at hnot; cases hnot
      | _ => exact hdrop
    subst hsameInst
    exact h.definedBefore hf (hf.defined b ((hreach b).mp hb) place v inst' (hinsts b hb ▸ hget)
      hfi hnot w hw)
  · rw [hinst b hb v hv] at hi
    obtain ⟨inst', hfi, hdrop⟩ := Option.map_eq_some_iff.mp hi
    cases inst' with
    | phi ty' args' =>
      rw [dropArgs, Inst.phi.injEq] at hdrop
      rw [h.preds_eq b ((hreach b).mp hb), ← hdrop.2, keepMarked_zip, mem_filter] at he
      exact h.definedBy hf (hf.phi_defined b ((hreach b).mp hb) v (hinsts b hb ▸ hv) ty' args' hfi
        e he.1 ((hreach e.1).mp hreached))
    | _ => simp [dropArgs] at hdrop
  · rw [hinst b hb v hv] at hi
    obtain ⟨inst, hfi, hdrop⟩ := Option.map_eq_some_iff.mp hi
    cases inst with
    | alloca ty' pinned' =>
      exact hf.alloca_entry b ((hreach b).mp hb) v (hinsts b hb ▸ hv) ty' pinned' hfi
    | _ => simp [dropArgs] at hdrop

end

/-! ### Runs of the pruned function -/

section Runs

variable {I : Interpretation} {M N : Machine I}

lemma exec_eq (hcell : N.isCell = M.isCell) (hargs : N.args = M.args) (marks : List Bool)
    (v : Value) (inst : Inst) (state : RunState I) :
    N.exec v (dropArgs marks inst) state = M.exec v inst state := by
  cases inst <;> simp [dropArgs, Machine.exec, hcell, hargs]

section

variable (h : Trimmed M.function N.function entry live) (hf : WellFormed M.function entry)
include h hf

lemma runInsts_eq (hcell : N.isCell = M.isCell) (hargs : N.args = M.args)
    (hb : Reached M.function entry b) {todo : List Value} (htodo : todo ⊆ M.function.insts b)
    (state : RunState I) : N.runInsts todo state = M.runInsts todo state := by
  induction todo generalizing state with
  | nil => rfl
  | cons v rest ih =>
    rw [cons_subset] at htodo
    have hinst := h.inst?_of_mem hf hb htodo.1
    rw [Machine.runInsts, Machine.runInsts, hinst]
    cases hi : M.function.inst? v with
    | none => rfl
    | some inst =>
      have hterm : (dropArgs ((M.function.preds b).map live) inst).isTerminator =
          inst.isTerminator := by cases inst <;> rfl
      simp only [Option.map_some, hterm, exec_eq hcell hargs]
      split
      · cases inst <;> rfl
      · cases M.exec v inst state with
        | ok state' => exact ih htodo.2 state'
        | error state' => rfl

omit h hf in
lemma incoming_eq (h : Trimmed f p entry live) (hq : Reached f entry q) (hb : Reached f entry b)
    (args : List Value) :
    incoming (p.preds b) (keepMarked args ((f.preds b).map live)) q =
      incoming (f.preds b) args q := by
  rw [incoming, h.preds_eq b hb, keepMarked_zip, filter_filter, incoming]
  congr 2
  funext pair
  by_cases hpair : pair.1 = q
  · simp [hpair, (h.live_iff q).mpr hq]
  · simp [hpair]

lemma enter_eq (hq : Reached M.function entry q) (hb : Reached M.function entry b) (turn : Nat)
    (state : RunState I) : N.enter q turn b state = M.enter q turn b state := by
  unfold Machine.enter
  congr 1
  funext v
  rw [h.phis_eq hf hb]
  split
  · next hv =>
    rw [Machine.phiWord, Machine.phiWord, h.phi_eq b hb v hv]
    cases M.function.inst? v with
    | none => rfl
    | some inst =>
      cases inst with
      | phi ty args =>
        simp only [Option.map_some, dropArgs]
        rw [h.incoming_eq hq hb]
      | _ => rfl
  · rfl

lemma runFrom_eq (hcell : N.isCell = M.isCell) (hargs : N.args = M.args) (fuel : Nat)
    (hb : Reached M.function entry b) {done todo : List Value}
    (hsplit : M.function.insts b = done ++ todo) (state : RunState I) :
    N.runFrom fuel b todo state = M.runFrom fuel b todo state := by
  induction fuel generalizing b done todo state with
  | zero =>
    rw [Machine.runFrom, Machine.runFrom, h.runInsts_eq hf hcell hargs hb (hsplit ▸ by simp)]
  | succ fuel ih =>
    rw [Machine.runFrom, Machine.runFrom, h.runInsts_eq hf hcell hargs hb (hsplit ▸ by simp)]
    cases hrun : M.runInsts todo state with
    | halt outcome state' => rfl
    | goto target turn state' =>
      have hedge : Edge M.function b target :=
        count_pos_iff.mp (by have := hf.runInsts_goto hb hsplit hrun; omega)
      have htarget := hb.step hedge
      dsimp only
      rw [h.enter_eq hf hb htarget, h.afterPhis_eq hf htarget]
      exact ih htarget (M.function.phis_append_afterPhis target).symm _

lemma run_eq (hcell : N.isCell = M.isCell) (hargs : N.args = M.args) (memory : I.Memory)
    (fuel : Nat) : N.run memory fuel = M.run memory fuel := by
  rw [Machine.run, Machine.run, h.entry_eq hf, hf.entry_eq]
  dsimp only
  rw [h.insts_eq entry .at_entry]
  exact h.runFrom_eq hf hcell hargs fuel .at_entry (nil_append _).symm _

end

end Runs

end Trimmed

end SsaLowering.Proofs
