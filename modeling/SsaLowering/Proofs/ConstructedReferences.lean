import SsaLowering.Proofs.SoundLowering

/-!
# References of constructed functions

SSA construction leaves no reference dangling, not even in the values and blocks that it removes.
-/

namespace SsaLowering.Proofs

open Ir Ssa List

variable {f p : Function} {values blocks : Nat} {info : ValueInfo} {b : Block}

/-! ### Pruning -/

namespace InRangeBy

lemma clearBlock (h : InRangeBy f values blocks) (b : Block) :
    InRangeBy (clearBlock f b) values blocks := by
  have hempty : ∀ info, f.block? b = some info →
      BlockInRange values blocks { info with preds := [], insts := [] } :=
    fun _ _ => ⟨by simp, by simp⟩
  exact (h.modifyBlock b hempty).foldl_modifyValue _ fun _ info hinfo =>
    ⟨hinfo.operands, hinfo.successors, by simp⟩

lemma dropArgs (h : ValueInRange values blocks info) (marks : List Bool) :
    ValueInRange values blocks { info with inst := dropArgs marks info.inst } where
  operands v hv := h.operands v (operands_dropArgs_subset marks info.inst hv)
  successors b hb := by
    refine h.successors b ?_
    cases hinst : info.inst with
    | phi ty args =>
      rw [hinst] at hb
      cases hb
    | _ =>
      rw [hinst] at hb
      exact hb
  home := h.home

lemma dropEdges (h : InRangeBy f values blocks) (doms : Dominators) (b : Block) :
    InRangeBy (dropEdges doms f b) values blocks := by
  unfold Ssa.dropEdges
  dsimp only
  split
  · exact h
  · have htrimmed := h.foldl_modifyValue (f.phis b) fun _ info hinfo =>
      InRangeBy.dropArgs hinfo ((f.preds b).map doms.isReachable)
    refine htrimmed.modifyBlock b fun info hinfo => ⟨fun q hq => ?_, ?_⟩
    · rw [keepMarked_map] at hq
      exact h.preds_lt (mem_filter.mp hq).1
    · exact (htrimmed.block b info hinfo).insts

lemma prune (h : InRangeBy f values blocks) {count : Nat} (hprune : prune f = .ok (count, p)) :
    InRangeBy p values blocks := by
  obtain ⟨doms, -, hrest⟩ := bind_eq_ok_iff.mp hprune
  rw [partition_eq_filter_filter] at hrest
  dsimp only at hrest
  split at hrest
  · cases hrest
    exact h
  · cases hrest
    have hcleared := h.foldl (f.layout.filter (not ∘ doms.isReachable)) fun _ h b => h.clearBlock b
    have hjoined := hcleared.foldl (f.layout.filter doms.isReachable) fun _ h b =>
      h.dropEdges doms b
    exact { hjoined with layout := fun b hb => h.layout b (mem_filter.mp hb).1 }

end InRangeBy

/-! ### Promotion -/

section Promotion

variable {entry : Block} {doms : Dominators} {slots : List Slot}
  {homes : List (Slot × Block)} {placed : Placed} {walk : Renaming} {held : Block → Held}

lemma ValueInRange.mono {more : Nat} (h : ValueInRange values blocks info) (hle : values ≤ more) :
    ValueInRange more blocks info :=
  ⟨fun v hv => (h.operands v hv).trans_le hle, h.successors, h.home⟩

section

variable (h : Stage p entry doms slots homes placed)
  (hr : Renamed p entry doms slots homes placed walk held)
include h hr

lemma Renamed.placed_lt (hb : Reached p entry b) {v : Value} (hv : v ∈ placed.function.insts b) :
    v.id < walk.function.values.size := by
  rw [hr.walked.size_eq]
  rcases h.mem_insts.mp hv with hold | hnew
  · have := h.pruned.lt_size hb hold
    omega
  · obtain ⟨i, s, hget, rfl⟩ := mem_newPhis_iff.mp hnew
    have := (List.getElem?_eq_some_iff.mp hget).1
    dsimp only
    omega

lemma Renamed.grounded_lt (hb : Reached p entry b) {before : List Value}
    (hsub : before ⊆ placed.function.insts b) {w : Value}
    (hw : Grounded p entry slots placed walk b before w) : w.id < walk.function.values.size := by
  rcases hw.computed with ⟨ty, hundef⟩ | hmem | ⟨d, hd, hmem⟩
  · exact (hr.walked.undef_lt hundef).2
  · exact hr.placed_lt h hb (hsub hmem)
  · exact hr.placed_lt h (hd.1.reachable hb) hmem

lemma Renamed.repOf_lt {x : Value} (hx : x.id < walk.function.values.size) :
    (repOf walk x).id < walk.function.values.size := by
  rw [repOf]
  cases hl : walk.reads.lookup x with
  | none => exact hx
  | some w =>
    have hmem := mem_of_lookup hl
    obtain ⟨-, d, hd, hxd⟩ := (hr.keyed x).mp (mem_map.mpr ⟨_, hmem, rfl⟩)
    obtain ⟨-, hreps, -⟩ := hr.grounded h hd (append_nil _).symm
    have hw := hreps x (h.mem_insts.mpr (.inl hxd))
    rw [hr.agrees.read _ hmem] at hw
    exact hr.grounded_lt h hd (fun _ hy => hy) hw

/-- What flows into an inserted phi exists. -/
lemma Renamed.args_lt {i : Nat} {s : Slot} (hget : homes[i]? = some (s, b)) {w : Value}
    (hw : w ∈ argsOf walk.function ⟨p.values.size + i⟩) : w.id < walk.function.values.size := by
  obtain ⟨j, hj⟩ := mem_iff_getElem?.mp hw
  have hlt : j < (p.preds b).length :=
    hr.walked.length_argsOf hget ▸ (List.getElem?_eq_some_iff.mp hj).1
  have hb := (h.homes_get hget).2.1
  have hpred : (p.preds b)[j]? = some ((p.preds b).get ⟨j, hlt⟩) := List.getElem?_eq_getElem hlt
  have hq := h.pruned.preds_reached b hb _ (List.mem_of_getElem? hpred)
  have hedge := (h.pruned.predsAgree _ b hq hb).mp (List.mem_of_getElem? hpred)
  obtain ⟨w', hw', hsource⟩ := hr.arg_source _ b hq hedge i s hget j hpred
  obtain rfl := Option.some.inj (hj.symm.trans hw')
  obtain ⟨hheld, -⟩ := hr.grounded h hq (append_nil _).symm
  exact hr.grounded_lt h hq (fun _ hy => hy) (source_grounded h hr hheld hsource)

/-- The values of the renamed function: old ones, inserted phis and undefined values. -/
lemma Renamed.value_inRange (hp : InRangeBy p p.values.size p.blocks.size) {v : Value}
    (hv : walk.function.value? v = some info) :
    ValueInRange walk.function.values.size p.blocks.size info := by
  have hw := hr.walked
  have hsize := hw.size_eq
  have hlt : v.id < walk.function.values.size := (Array.getElem?_eq_some_iff.mp hv).1
  by_cases hold : v.id < p.values.size
  · rw [hw.old_value v hold] at hv
    exact (hp.value v info hv).mono (by omega)
  by_cases hnew : v.id < p.values.size + homes.length
  · obtain ⟨i, hi⟩ : ∃ i, v = ⟨p.values.size + i⟩ :=
      ⟨v.id - p.values.size, Value.ext (by dsimp only; omega)⟩
    subst hi
    dsimp only at hnew
    have hi : i < homes.length := by omega
    have hget : homes[i]? = some (homes.get ⟨i, hi⟩) := List.getElem?_eq_getElem hi
    obtain ⟨info', args, hinfo, hinst, -, hblock⟩ := hw.phi_value i _ _ hget
    obtain rfl := Option.some.inj (hv.symm.trans hinfo)
    have hargs : args = argsOf walk.function ⟨p.values.size + i⟩ := by
      rw [argsOf, Function.inst?, hinfo, Option.map_some, hinst]
    refine ⟨fun w hmem => ?_, ?_, fun b hb => ?_⟩
    · rw [hinst] at hmem
      exact hr.args_lt h hget (hargs ▸ hmem)
    · rw [hinst]
      simp [Inst.successors]
    · rw [hblock] at hb
      obtain rfl := Option.some.inj hb
      exact h.pruned.blocks_exist _ (h.homes_get hget).2.1
  · have hi : v.id - (p.values.size + homes.length) < walk.undefs.length := by omega
    have hget : walk.undefs[v.id - (p.values.size + homes.length)]? = some (walk.undefs.get ⟨_, hi⟩) :=
      List.getElem?_eq_getElem hi
    have hu := hw.undef_id _ _ _ hget
    obtain ⟨info', hinfo, hinst, hblock⟩ := hw.undef_value _ (List.mem_of_getElem? hget)
    have hv' : (walk.undefs.get ⟨_, hi⟩).2 = v := by
      rw [hu]
      exact Value.ext (by dsimp only; omega)
    rw [hv'] at hinfo
    obtain rfl := Option.some.inj (hv.symm.trans hinfo)
    refine ⟨?_, ?_, fun b hb => ?_⟩
    · rw [hinst]
      simp [Inst.operands]
    · rw [hinst]
      simp [Inst.successors]
    · rw [hblock] at hb
      obtain rfl := Option.some.inj hb
      exact h.pruned.blocks_exist _ .at_entry

lemma Renamed.walk_inRange (hp : InRangeBy p p.values.size p.blocks.size) :
    InRangeBy walk.function walk.function.values.size p.blocks.size where
  values_size := rfl
  blocks_size := hr.walked.blocks_size
  value _ _ hv := hr.value_inRange h hp hv
  block b info hb := by
    have hw := hr.walked
    have hpreds : walk.function.preds b = info.preds := by rw [Function.preds, hb]; rfl
    have hinsts : walk.function.insts b = info.insts := by rw [Function.insts, hb]; rfl
    have hsize := hw.size_eq
    rw [hw.preds_eq] at hpreds
    refine ⟨fun q hq => hp.preds_lt (hpreds ▸ hq), fun v hv => ?_⟩
    rw [← hinsts] at hv
    rcases hw.mem_insts h hv with hold | ⟨i, s, hget, rfl⟩ | ⟨-, ty, hundef⟩
    · have := hp.insts_lt hold
      omega
    · have := (List.getElem?_eq_some_iff.mp hget).1
      dsimp only
      omega
    · exact (hw.undef_lt hundef).2
  params v hv := by
    rw [hr.walked.frame] at hv
    have := hp.params v hv
    have := hr.walked.size_eq
    omega
  untagged := by
    rw [hr.walked.frame]
    exact hp.untagged
  layout b hb := by
    rw [hr.walked.frame] at hb
    exact hp.layout b hb

omit h hr in
lemma InRangeBy.rewriteBlock (h : InRangeBy f values blocks) (removed : Value → Bool)
    {replace : Value → Value} (hreplace : ∀ v : Value, v.id < values → (replace v).id < values)
    (b : Block) : InRangeBy (rewriteBlock removed replace f b) values blocks := by
  have hchange (v : Value) (info : ValueInfo) (hinfo : ValueInRange values blocks info) :
      ValueInRange values blocks (rewriteInfo removed replace v info) := by
    unfold rewriteInfo
    split
    · exact ⟨hinfo.operands, hinfo.successors, by simp⟩
    · refine ⟨fun w hw => ?_, fun t ht => ?_, hinfo.home⟩
      · rw [Inst.operands_mapOperands] at hw
        obtain ⟨x, hx, rfl⟩ := mem_map.mp hw
        exact hreplace x (hinfo.operands x hx)
      · rw [Inst.successors_mapOperands] at ht
        exact hinfo.successors t ht
  have hvalues := h.foldl_modifyValue (f.insts b) hchange
  rw [rewriteBlock_eq]
  refine hvalues.modifyBlock b fun info hinfo => ⟨(hvalues.block b info hinfo).preds, fun v hv => ?_⟩
  exact h.insts_lt (mem_filter.mp hv).1

lemma Renamed.applied_inRange (hp : InRangeBy p p.values.size p.blocks.size) :
    InRangeBy (applyRenaming slots walk) walk.function.values.size p.blocks.size := by
  obtain ⟨removed, -, heq⟩ := hr.applyRenaming_eq h
  rw [heq]
  exact (hr.walk_inRange h hp).foldl p.layout fun _ h' b =>
    h'.rewriteBlock removed (fun _ hv => hr.repOf_lt h hv) b

end

end Promotion

/-- What is constructed from finished code refers to nothing outside of it. -/
theorem Finished.construct_inRange {A : Avail} {b : Builder} (h : Finished A b) {stats : Stats}
    {g : Function} (hg : construct b.function = .ok (stats, g)) : InRange g ∧ g.tags = [] := by
  have hrange := InRangeBy.of_inRange h.inRange h.rooted.untagged
  obtain ⟨stats', g', count, p, live, hconstruct, hprune, -, -, hcases⟩ := construct_cases h.wellFormed
  rw [hg] at hconstruct
  obtain ⟨rfl, rfl⟩ := Prod.mk.inj (Except.ok.inj hconstruct)
  have hp := hrange.prune hprune
  rcases hcases with ⟨-, rfl⟩ | ⟨doms, homes, placed, walk, held, hstage, hr, rfl⟩
  · exact ⟨hp.inRange, hp.untagged⟩
  · have hp' : InRangeBy p p.values.size p.blocks.size := by
      rw [hp.values_size, hp.blocks_size]
      exact hp
    have happlied := hr.applied_inRange hstage hp'
    exact ⟨happlied.inRange, happlied.untagged⟩

/-! ### Names -/

lemma foldl_name {α : Type} {step : Function → α → Function} (items : List α) (f : Function)
    (h : ∀ f x, (step f x).name = f.name) : (items.foldl step f).name = f.name :=
  List.foldlRecOn items step (motive := fun g => g.name = f.name) rfl
    fun g hg x _ => (h g x).trans hg

lemma clearBlock_name (f : Function) (b : Block) : (clearBlock f b).name = f.name :=
  foldl_name _ _ fun _ _ => rfl

lemma dropEdges_name (doms : Dominators) (f : Function) (b : Block) :
    (dropEdges doms f b).name = f.name := by
  unfold Ssa.dropEdges
  dsimp only
  split
  · rfl
  · exact foldl_name (f.phis b) f fun _ _ => rfl

lemma prune_name {count : Nat} (h : prune f = .ok (count, p)) : p.name = f.name := by
  obtain ⟨doms, -, hrest⟩ := bind_eq_ok_iff.mp h
  dsimp only at hrest
  split at hrest
  · cases hrest
    rfl
  · cases hrest
    exact (foldl_name _ _ (dropEdges_name doms)).trans (foldl_name _ _ clearBlock_name)

lemma applyRenaming_name (slots : List Slot) (walk : Renaming) :
    (applyRenaming slots walk).name = walk.function.name := by
  refine foldl_name _ _ fun g b => ?_
  refine foldl_name (g.insts b) g fun _ _ => ?_
  split <;> rfl

lemma WellFormed.construct_name {entry : Block} (h : WellFormed f entry) {stats : Stats}
    {g : Function} (hg : construct f = .ok (stats, g)) : g.name = f.name := by
  obtain ⟨stats', g', count, p, live, hconstruct, hprune, -, -, hcases⟩ := construct_cases h
  rw [hg] at hconstruct
  obtain ⟨rfl, rfl⟩ := Prod.mk.inj (Except.ok.inj hconstruct)
  rcases hcases with ⟨-, rfl⟩ | ⟨doms, homes, placed, walk, held, hstage, hr, rfl⟩
  · exact prune_name hprune
  · have hframe : walk.function.name = p.name := by rw [hr.walked.frame]
    rw [applyRenaming_name, hframe]
    exact prune_name hprune

end SsaLowering.Proofs
