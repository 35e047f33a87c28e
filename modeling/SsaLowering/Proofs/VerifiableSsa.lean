import SsaLowering.Proofs.SoundLowering

/-!
# SSA construction yields code that is accepted

If what pruning leaves of a function is accepted by the verifier, and its promotable slots are
accessed at their own types, then the verifier accepts what SSA construction makes of the function.
The undefined values that stand for what slots hold at first are put behind the parameters, so that
the entry must have no phis: this is where construction can go wrong.
-/

namespace SsaLowering.Proofs

open Ir Ssa List

variable {v x : Value} {inst : Inst} {b : Block} {s : Slot}

variable {f p g : Function} {entry : Block} {layouts : LayoutTable}

/-! ### What is accepted is in order -/

lemma layout_exists_of_verify (h : p.verify layouts = .ok (.ok ())) :
    ∀ b ∈ p.layout, b.id < p.blocks.size := by
  intro b hb
  rw [Function.verify] at h
  cases hpositions : p.positions with
  | error malformation =>
    rw [hpositions] at h
    cases h
  | ok positions =>
    rw [hpositions] at h
    obtain ⟨doms, -, hpure⟩ := bind_eq_ok_iff.mp h
    obtain ⟨entry, -, -, hblocks, -⟩ := checkBody_eq_ok_iff.mp (Except.ok.inj hpure)
    have hne := insts_ne_nil_of_shaped (checkShape_eq_ok_iff.mp (hblocks b hb).2)
    by_contra hge
    have hnone : p.block? b = none := Array.getElem?_eq_none (Nat.le_of_not_lt hge)
    rw [Function.insts, hnone] at hne
    exact hne rfl

lemma mem_takeWhile_of_split {α : Type} {P : α → Bool} {items before after : List α} {x : α}
    (hsplit : items = before ++ x :: after) (hbefore : ∀ y ∈ before, P y = true)
    (hx : P x = true) : x ∈ items.takeWhile P := by
  rw [hsplit, takeWhile_append_of_pos hbefore, takeWhile_cons_of_pos hx]
  exact mem_append_right _ mem_cons_self

/-- A sound function that stays within its layout, whose parameters lead the entry, is in order. -/
lemma Sound.pruned (h : Sound p entry) (hlayout : ∀ b ∈ p.layout, b.id < p.blocks.size)
    (hclosed : ∀ b ∈ p.layout, ∀ t ∈ p.successors b, t ∈ p.layout)
    (hparams : p.params = (p.insts entry).takeWhile (p.instIs Inst.isParam))
    (hphis : p.phis entry = []) : Pruned p entry := by
  have hlisted : ∀ b, Reached p entry b → b ∈ p.layout := fun b =>
    reached_mem_layout h.entry_eq hclosed
  have hshaped (b : Block) (hb : Reached p entry b) := h.shaped b (hlisted b hb)
  have hnodup := layout_nodup_of_placedValues h.placed_once fun b hb =>
    insts_ne_nil_of_shaped (h.shaped b hb)
  have hphi {b : Block} (hb : Reached p entry b) {v : Value} (hv : v ∈ p.insts b)
      (hphi : p.instIs Inst.isPhi v = true) : v ∈ p.phis b := by
    obtain ⟨before, after, hsplit⟩ := append_of_mem hv
    exact mem_takeWhile_of_split hsplit ((hshaped b hb).phis_first before v after hsplit hphi) hphi
  exact
    { entry_eq := h.entry_eq
      layout_nodup := hnodup
      listed := hlisted
      blocks_exist := fun b hb => hlayout b (hlisted b hb)
      values_exist := fun b hb v hv => by
        obtain ⟨inst, hinst⟩ := h.homed.exists_inst (hlisted b hb) hv
        rw [hinst]
        rfl
      insts_nodup := fun b hb => (nodup_flatMap.mp h.placed_once).1 b (hlisted b hb)
      home_unique := fun b c hb hc v hv hv' => Option.some.inj
        ((h.homed b (hlisted b hb) v hv).symm.trans (h.homed c (hlisted c hc) v hv'))
      terminated := fun b hb => by
        obtain ⟨before, last, heq, hterm, -⟩ := (hshaped b hb).terminator_last
        exact p.terminator?_isSome_iff.mpr ⟨last, heq ▸ getLast?_concat, hterm⟩
      terminator_last := fun b hb v hv => by
        obtain ⟨before, last, heq, -, hnone⟩ := (hshaped b hb).terminator_last
        rw [heq, dropLast_concat] at hv
        exact hnone v hv
      preds_perm := fun b hb => perm_iff_count.mpr fun q => by
        rw [h.preds_right b (hlisted b hb) q, Function.edgeSources, count_flatMap_replicate hnodup]
      entry_preds := h.entry_preds
      phis_first := fun b hb v hv => by
        -- a phi behind the phis would be among them, and stand twice in its block
        by_contra hne
        have hmem := p.phis_append_afterPhis b ▸ mem_append_right _ hv
        have hv' := hphi hb hmem (Bool.eq_true_of_not_eq_false hne)
        have hinsts := (nodup_flatMap.mp h.placed_once).1 b (hlisted b hb)
        rw [← p.phis_append_afterPhis b, nodup_append] at hinsts
        exact hinsts.2.2 v hv' v hv rfl
      phi_arity := fun b hb v hv ty args hinst =>
        (hshaped b hb).phi_arity v (p.phis_subset hv) ty args hinst
      params_lead := hparams ▸ List.takeWhile_prefix _
      params_param := fun v hv => mem_takeWhile_imp (hparams ▸ hv)
      params_only := fun b hb v hv hparam => by
        obtain ⟨before, after, hsplit⟩ := append_of_mem hv
        obtain ⟨rfl, hbefore⟩ := (hshaped b hb).params_first before v after hsplit hparam
        rw [hparams]
        refine mem_takeWhile_of_split hsplit
          (fun u hu => (hbefore u hu).resolve_left fun hu' => ?_) hparam
        have hmem := hphi hb (hsplit ▸ mem_append_left _ hu) hu'
        rw [hphis] at hmem
        cases hmem
      defined := fun b hb place v inst hget hinst hnot w hw =>
        (h.operands b (hlisted b hb) place v inst hget hinst).before hnot w hw
      phi_defined := fun b hb v hv ty args hinst edge hedge _ => by
        obtain ⟨place, hget⟩ := mem_iff_getElem?.mp hv
        exact (h.operands b (hlisted b hb) place v _ hget hinst).incoming ty args rfl edge hedge
      layout_reached := h.reached
      preds_reached := fun b hb q hq => by
        have hcount := count_pos_iff.mpr hq
        rw [h.preds_right b (hlisted b hb) q] at hcount
        split at hcount
        · next hmem => exact h.reached q hmem
        · cases hcount }

/-! ### Types -/

lemma not_isStore_of_ty (hvoid : p.ty x ≠ .void) : p.instIs isStore x = false := by
  rw [Function.ty] at hvoid
  rw [Function.instIs]
  cases hinst : p.inst? x with
  | none => rfl
  | some inst =>
    rw [hinst] at hvoid
    cases inst <;> first | rfl | exact absurd rfl hvoid

/-- If an instruction accesses a slot, then at the type of the slot. -/
def accessFits (p : Function) (s : Slot) : Inst → Bool
  | .load ty address => address ≠ s.address || ty = s.ty
  | .store address stored => address ≠ s.address || p.ty stored = s.ty
  | _ => true

def TypedSlots (p : Function) (slots : List Slot) : Prop :=
  ∀ s ∈ slots, ∀ v ∈ p.placedValues, ∀ inst ∈ p.inst? v, accessFits p s inst = true

section Promotion

variable {doms : Dominators} {slots : List Slot} {homes : List (Slot × Block)}
  {placed : Placed} {walk : Renaming} {held : Block → Held}

/-- What can be used at some point stands where control gets to. -/
lemma Stage.stands_of_available (h : Stage p entry doms slots homes placed)
    (hb : Reached p entry b) {before after : List Value}
    (hsplit : placed.function.insts b = before ++ after) (hlt : x.id < p.values.size)
    (hx : Available p entry b before x) : ∃ d, Reached p entry d ∧ x ∈ p.insts d := by
  rcases hx with hx | ⟨d, hd, hx⟩
  · refine ⟨b, hb, (h.mem_insts.mp (hsplit ▸ mem_append_left _ hx)).resolve_right fun hnew => ?_⟩
    obtain ⟨i, -, -, rfl⟩ := mem_newPhis_iff.mp hnew
    exact absurd hlt (Nat.not_lt.mpr (Nat.le_add_right ..))
  · exact ⟨d, hd.1.reachable hb, hx⟩

lemma Promoted.ty_kept (hg : Promoted p entry slots homes placed walk held g) {d : Block}
    (hd : Reached p entry d) (hx : x ∈ p.insts d) (hkept : isDropped slots p x = false) :
    g.ty x = p.ty x := by
  rw [Function.ty, Function.ty, hg.inst_kept d hd x hx hkept, Option.map_map]
  congr 2
  funext inst
  exact Inst.ty_mapOperands _ inst

lemma WellTyped.plain (hp : WellTyped p layouts) (hpruned : Pruned p entry)
    (hphis : p.phis entry = []) : Plain p entry where
  entry_phi v hv := by
    by_contra hphi
    have hmem := hpruned.mem_phis .at_entry hv (Bool.eq_true_of_not_eq_false hphi)
    rw [hphis] at hmem
    cases hmem
  stores_unused b hb v hv inst hinst w hw :=
    not_isStore_of_ty ((hp b (hpruned.listed b hb) v hv inst hinst).1 w hw)

namespace TypedSlots

section

variable (ht : TypedSlots p slots) (h : Stage p entry doms slots homes placed)
include ht h

lemma load_ty (hb : Reached p entry b) (hv : v ∈ p.insts b)
    (hacc : access? slots p v = some (s, .load)) : p.ty v = s.ty := by
  obtain ⟨hs, ty, hinst⟩ := (access?_eq_load_iff h.distinct).mp hacc
  rw [ty_of_inst hinst]
  have hplaced := (h.pruned.mem_placedValues_iff v).mpr ⟨b, hb, hv⟩
  simpa [accessFits, Inst.ty] using ht s hs v hplaced _ hinst

lemma store_ty (hb : Reached p entry b) (hv : v ∈ p.insts b)
    (hacc : access? slots p v = some (s, .store x)) : p.ty x = s.ty := by
  obtain ⟨hs, hinst⟩ := (access?_eq_store_iff h.distinct).mp hacc
  simpa [accessFits] using ht s hs v ((h.pruned.mem_placedValues_iff v).mpr ⟨b, hb, hv⟩) _ hinst

end

section

variable (ht : TypedSlots p slots) (hp : WellTyped p layouts)
  (h : Stage p entry doms slots homes placed)
include ht hp h

/-- A slot with a phi is stored to, so that it holds values. -/
lemma home_ty (hmem : (s, b) ∈ homes) : s.ty ≠ .void := by
  obtain ⟨c, ⟨hc, v, hv, x, hacc⟩, -⟩ := h.places.origin _ hmem
  obtain ⟨-, hinst⟩ := (access?_eq_store_iff h.distinct).mp hacc
  rw [← ht.store_ty h hc hv hacc]
  exact (hp c (h.pruned.listed c hc) v hv _ hinst).1 x (by simp [Inst.operands])

variable (hr : Renamed p entry doms slots homes placed walk held)
  (hg : Promoted p entry slots homes placed walk held g)

omit hr in
include hg in
lemma flows : Flows p entry slots homes walk fun s w => g.ty w = s.ty where
  phi i s b hget := by
    obtain ⟨args, hinst, -⟩ := hg.inst_phi i s b hget
    exact ty_of_inst hinst
  undef s _ w hw := ty_of_inst (hg.inst_undef _ hw)
  stored b hb v hv s x hacc := by
    obtain ⟨hs, hinst⟩ := (access?_eq_store_iff h.distinct).mp hacc
    have hx : x ∈ (Inst.store s.address x).operands := by simp [Inst.operands]
    obtain ⟨before, after, hsplit⟩ := append_of_mem (h.mem_insts.mpr (.inl hv))
    obtain ⟨hlt, havail⟩ := h.operand_ready hb hsplit hinst rfl hx
    obtain ⟨d, hd, hmem⟩ := h.stands_of_available hb hsplit hlt havail
    have hty := ht.store_ty h hb hv hacc
    refine ⟨fun hload => ?_, fun s' w hacc' hw => ?_⟩
    · have hprivate : isPromoted slots x = false := by
        refine h.not_isPromoted_of_escaping hb hv ?_
        rw [Ssa.escaping, hinst]
        exact mem_singleton_self x
      have hstore := not_isStore_of_ty ((hp b (h.pruned.listed b hb) v hv _ hinst).1 x hx)
      rw [hg.ty_kept hd hmem (not_isDropped_of_store h hprivate hload hstore)]
      exact hty
    · rw [← hty, ht.load_ty h hd hmem hacc']
      exact hw

include hr hg

lemma rep_ty (hb : Reached p entry b) {before after : List Value}
    (hsplit : placed.function.insts b = before ++ after) (hlt : x.id < p.values.size)
    (hx : Available p entry b before x) (hprivate : isPromoted slots x = false)
    (hvoid : p.ty x ≠ .void) : g.ty (repOf walk x) = p.ty x := by
  obtain ⟨d, hd, hmem⟩ := h.stands_of_available hb hsplit hlt hx
  by_cases hload : IsLoad slots p x
  · obtain ⟨s, hacc⟩ := hload
    have hholds := hr.holds h (ht.flows hp h hg) hb hsplit
    rw [ht.load_ty h hd hmem hacc]
    rcases hx with hx | ⟨d', hd', hx⟩
    · exact hholds.loaded x hx s hacc
    · exact hholds.above d' hd' x hx s hacc
  · rw [hr.agrees.other x hload]
    exact hg.ty_kept hd hmem (not_isDropped_of_store h hprivate hload (not_isStore_of_ty hvoid))

lemma operand_ty (hb : Reached p entry b) (hv : v ∈ p.insts b)
    (hkept : isDropped slots p v = false) (hinst : p.inst? v = some inst)
    (hx : x ∈ inst.operands) : g.ty (repOf walk x) = p.ty x := by
  have hvoid := (hp b (h.pruned.listed b hb) v hv inst hinst).1 x hx
  cases hphi : inst.isPhi with
  | false =>
    obtain ⟨before, after, hsplit⟩ := append_of_mem (h.mem_insts.mpr (.inl hv))
    obtain ⟨hlt, havail⟩ := h.operand_ready hb hsplit hinst hphi hx
    exact ht.rep_ty hp h hr hg hb hsplit hlt havail
      (h.operand_not_isPromoted hb hv hkept hinst hx) hvoid
  | true =>
    obtain ⟨ty, args, rfl⟩ : ∃ ty args, inst = .phi ty args := by
      cases inst <;> first | exact ⟨_, _, rfl⟩ | cases hphi
    obtain ⟨j, hj⟩ := mem_iff_getElem?.mp (show x ∈ args from hx)
    have hlt : j < (p.preds b).length :=
      h.pruned.phi_length hb hv hinst ▸ (List.getElem?_eq_some_iff.mp hj).1
    have hpred := List.getElem?_eq_getElem hlt
    have hq := h.pruned.preds_reached b hb _ (List.mem_of_getElem? hpred)
    obtain ⟨hlt, hprivate, havail⟩ := h.phi_arg_ready hq hb hv hinst hpred hj
    exact ht.rep_ty hp h hr hg hq (List.append_nil _).symm hlt havail hprivate hvoid

lemma arg_ty {i : Nat} (hget : homes[i]? = some (s, b)) {args : List Value}
    (hinst : g.inst? ⟨p.values.size + i⟩ = some (.phi s.ty args)) {w : Value} (hw : w ∈ args) :
    g.ty w = s.ty := by
  obtain ⟨args', hinst', hlen, hsource⟩ := hg.inst_phi i s b hget
  obtain ⟨-, rfl⟩ := Inst.phi.inj (Option.some.inj (hinst'.symm.trans hinst))
  obtain ⟨hs, hb, -⟩ := h.homes_get hget
  obtain ⟨j, hj⟩ := mem_iff_getElem?.mp hw
  have hlt : j < (p.preds b).length := hlen ▸ (List.getElem?_eq_some_iff.mp hj).1
  have hpred := List.getElem?_eq_getElem hlt
  have hq := h.pruned.preds_reached b hb _ (List.mem_of_getElem? hpred)
  obtain ⟨w', hw', hsource⟩ := hsource j _ hpred
  obtain rfl := Option.some.inj (hj.symm.trans hw')
  have hflows := ht.flows hp h hg
  exact Renamed.source_holds hflows (hr.holds h hflows hq (List.append_nil _).symm) hs hsource

lemma promoted : WellTyped g layouts := by
  intro b hb v hv inst hinst
  rw [hg.layout_eq] at hb
  have hb := h.pruned.layout_reached b hb
  rcases hg.inst_cases h hb hv with ⟨old, hold, hkept, hinst', hnew⟩ | ⟨i, s, hget, rfl⟩ |
    ⟨-, ty, -, hnew⟩
  · obtain rfl := Option.some.inj (hinst.symm.trans hnew)
    obtain ⟨hvoid, hrule⟩ := hp b (h.pruned.listed b hb) v hold old hinst'
    have hty (x : Value) (hx : x ∈ old.operands) := ht.operand_ty hp h hr hg hb hold hkept hinst' hx
    refine ⟨fun w hw => ?_, hrule.mapOperands hg.ret_eq hty⟩
    rw [Inst.operands_mapOperands, mem_map] at hw
    obtain ⟨x, hx, rfl⟩ := hw
    rw [hty x hx]
    exact hvoid x hx
  · obtain ⟨args, hnew, -⟩ := hg.inst_phi i s b hget
    obtain rfl := Option.some.inj (hinst.symm.trans hnew)
    refine ⟨fun w hw => ?_, fun w hw => ht.arg_ty hp h hr hg hget hnew hw⟩
    rw [ht.arg_ty hp h hr hg hget hnew hw]
    exact ht.home_ty hp h (List.mem_of_getElem? hget)
  · obtain rfl := Option.some.inj (hinst.symm.trans hnew)
    exact ⟨nofun, trivial⟩

end

end TypedSlots

end Promotion

/-! ### Construction -/

lemma entry?_of_prune {count : Nat} (h : prune f = .ok (count, p)) : p.entry? = f.entry? := by
  obtain ⟨doms, hcompute, h⟩ := bind_eq_ok_iff.mp h
  dsimp only at h
  split at h
  · rw [(Prod.mk.inj (Except.ok.inj h)).2]
  · next hdead =>
    rw [← (Prod.mk.inj (Except.ok.inj h)).2, Function.entry?, Function.entry?,
      partition_eq_filter_filter]
    cases hlayout : f.layout with
    | nil => rfl
    | cons entry rest =>
      have hentry : f.entry? = some entry := by rw [Function.entry?, hlayout]; rfl
      have hreach := (isReachable_iff_of_compute hentry hcompute entry).mpr .at_entry
      simp [hreach]

/-- What SSA construction needs of a function without unreachable blocks to give code that the
verifier accepts. -/
structure Constructible (p : Function) (types : LayoutTable) : Prop where
  accepted : p.verify types = .ok (.ok ())
  closed : ∀ b ∈ p.layout, ∀ t ∈ p.successors b, t ∈ p.layout
  params : ∀ entry ∈ p.entry?, p.params = (p.insts entry).takeWhile (p.instIs Inst.isParam)
  slots : TypedSlots p (promotable p)

/-- If what pruning leaves of a function is constructible and has no phi in its entry, the verifier
accepts what SSA construction makes of the function, by the same layouts. Every phi has an argument
for each predecessor that is computed by its end, all operands stand in the function, and the
promoted slots do not. -/
theorem construction_is_accepted {count : Nat} (hprune : prune f = .ok (count, p))
    (h : Constructible p layouts) (hphis : ∀ entry ∈ p.entry?, p.phis entry = []) :
    ∃ stats g entry, construct f = .ok (stats, g) ∧ g.verify layouts = .ok (.ok ()) ∧
      Sound g entry ∧ ∀ s ∈ promotable p, s.address ∉ g.placedValues := by
  have hlayout := layout_exists_of_verify h.accepted
  obtain ⟨entry, hsound, htyped⟩ := sound_of_verify hlayout h.closed h.accepted
  have hp := hsound.pruned hlayout h.closed (h.params entry hsound.entry_eq)
    (hphis entry hsound.entry_eq)
  obtain ⟨dominators, hcompute, hd⟩ :=
    compute_dominatorsOf hp.entry_eq hp.blocks_exist hp.predsAgree
  unfold construct
  rw [← entry?_of_prune hprune, hsound.entry_eq, hprune]
  dsimp only [bind, Except.bind]
  rw [hcompute]
  dsimp only
  split
  · next hempty =>
    refine ⟨_, p, entry, rfl, h.accepted, hsound, fun s hs => ?_⟩
    rw [isEmpty_iff.mp hempty] at hs
    cases hs
  · obtain ⟨homes, placed, walk, held, hstage, hr, hg⟩ := hp.promote hd
    have hplain := htyped.plain hp (hphis entry hsound.entry_eq)
    have hgp := hg.pruned hstage hr hplain
    have hgs := hgp.sound (hg.homed hstage hr hsound.homed)
    refine ⟨_, _, entry, rfl, hgs.verify_eq_ok hgp.listed
      (fun b hb => hgp.blocks_exist b (hgp.layout_reached b hb)) (h.slots.promoted htyped hstage hr hg),
      hgs, fun s hs hmem => ?_⟩
    obtain ⟨b, hb, hv⟩ := (hgp.mem_placedValues_iff _).mp hmem
    rw [hg.reached_iff hstage hr] at hb
    have hlt := Function.lt_size_of_inst? ((hstage.slots_iff s).mp hs).alloca
    have hdropped : isDropped (promotable p) p s.address = true :=
      isDropped_iff.mpr (.inl ⟨s, hs, rfl⟩)
    rcases hg.inst_cases hstage hb hv with ⟨_, _, hkept, _⟩ | ⟨i, _, _, heq⟩ | ⟨_, _, hundef, _⟩
    · rw [hdropped] at hkept
      cases hkept
    · rw [heq] at hlt
      dsimp only at hlt
      omega
    · have := (hr.walked.undef_lt hundef).1
      dsimp only at this
      omega

lemma choice_constructible : Constructible choice .empty where
  accepted := by cbv
  closed := by decide
  params := by decide
  slots := by unfold TypedSlots; decide

theorem choice_is_accepted : prune choice = .ok (0, choice) ∧ Constructible choice .empty ∧
    (∀ entry ∈ choice.entry?, choice.phis entry = []) ∧
    ∃ stats g entry, construct choice = .ok (stats, g) ∧ g.verify .empty = .ok (.ok ()) ∧
      Sound g entry ∧ ∀ s ∈ promotable choice, s.address ∉ g.placedValues :=
  ⟨rfl, choice_constructible, by decide,
    construction_is_accepted rfl choice_constructible (by decide)⟩

/-- The entry starts with a phi without arguments and reads a slot before anything is stored. -/
def leadingPhi : Function where
  name := "leadingPhi"
  ret := .i64
  span := .zero
  node := 0
  params := []
  values := #[⟨.phi .i64 [], some ⟨0⟩, .zero, 0⟩, ⟨.alloca .i64 false, some ⟨0⟩, .zero, 0⟩,
    ⟨.load .i64 ⟨1⟩, some ⟨0⟩, .zero, 0⟩, ⟨.ret (some ⟨2⟩), some ⟨0⟩, .zero, 0⟩]
  blocks := #[⟨"entry", [], [⟨0⟩, ⟨1⟩, ⟨2⟩, ⟨3⟩]⟩]
  layout := [⟨0⟩]

/-- Construction puts an undefined value before the phi, which is then not accepted any more. -/
theorem leadingPhi_is_rejected : prune leadingPhi = .ok (0, leadingPhi) ∧
    Constructible leadingPhi .empty ∧ ∃ stats g, construct leadingPhi = .ok (stats, g) ∧
      g.verify .empty = .ok (.error (.phiNotAtHead ⟨0⟩ ⟨0⟩)) := by
  refine ⟨rfl, ⟨by cbv, by decide, by decide, ?_⟩, _, _, rfl, by cbv⟩
  unfold TypedSlots
  decide

end SsaLowering.Proofs
