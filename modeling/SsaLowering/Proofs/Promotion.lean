import SsaLowering.Ssa.Construction
import SsaLowering.Proofs.PhiArguments

/-!
# The function without its promoted slots

What a slot holds at a point is a value computed above that point. So replacing loads by what they
read leaves every use behind its definition. The promoted function has the instructions it had
before, without the slots and their accesses, with the inserted phis behind the phis of their blocks
and the undefined values behind the parameters.
-/

namespace SsaLowering.Proofs

open Ir Ssa List

variable {b : Block} {f : Function} {blocks : List Block} {v w : Value} {before : List Value}

/-! ### Rewriting blocks -/

section Rewriting

variable (removed : Value → Bool) (replace : Value → Value)

def rewriteInfo (v : Value) (info : ValueInfo) : ValueInfo :=
  if removed v then { info with block := none }
  else { info with inst := info.inst.mapOperands replace }

lemma rewriteBlock_eq (f : Function) (b : Block) :
    rewriteBlock removed replace f b =
      ((f.insts b).foldl (fun f v => f.modifyValue v (rewriteInfo removed replace v)) f).modifyBlock
        b fun info => { info with insts := (f.insts b).filter (!removed ·) } := by
  unfold rewriteBlock
  dsimp only
  congr 2
  funext f v
  unfold rewriteInfo
  cases removed v <;> rfl

lemma rewriteBlock_block? (f : Function) (b c : Block) :
    (rewriteBlock removed replace f b).block? c =
      if c = b then (f.block? c).map fun info =>
        { info with insts := info.insts.filter (!removed ·) }
      else f.block? c := by
  obtain ⟨changed, heq, -⟩ := f.foldl_modifyValue_frame (f.insts b) (rewriteInfo removed replace)
  rw [rewriteBlock_eq, heq, Function.block?_modifyBlock]
  by_cases hc : c = b
  · subst hc
    cases h : f.block? c with
    | none =>
      have h' : Function.block? { f with values := changed } c = none := h
      rw [h']
      rfl
    | some info =>
      have h' : Function.block? { f with values := changed } c = some info := h
      have hinsts : f.insts c = info.insts := by rw [Function.insts, h]; rfl
      rw [h', Option.map_some, Option.map_some, hinsts]
  · rw [if_neg hc, if_neg hc]
    rfl

lemma rewriteBlock_value? (f : Function) (hnodup : (f.insts b).Nodup) (v : Value) :
    (rewriteBlock removed replace f b).value? v =
      if v ∈ f.insts b then (f.value? v).map (rewriteInfo removed replace v) else f.value? v := by
  rw [rewriteBlock_eq, Function.value?_modifyBlock,
    Function.value?_foldl_modifyValue f _ hnodup (rewriteInfo removed replace)]

lemma rewriteBlock_frame (f : Function) (b : Block) :
    SameFrame f (rewriteBlock removed replace f b) := by
  rw [rewriteBlock_eq]
  exact (SameFrame.foldl_modifyValue _ _ _).trans (.modifyBlock _ _ _)

/-- Blocks that share no instruction. -/
structure InstsApart (f : Function) (blocks : List Block) : Prop where
  nodup : ∀ b ∈ blocks, (f.insts b).Nodup
  apart : ∀ b ∈ blocks, ∀ c ∈ blocks, ∀ v ∈ f.insts b, v ∈ f.insts c → b = c

lemma rewritten_frame (f : Function) (blocks : List Block) :
    SameFrame f (blocks.foldl (rewriteBlock removed replace) f) := by
  induction blocks generalizing f with
  | nil => exact .refl f
  | cons b blocks ih => exact (rewriteBlock_frame removed replace f b).trans (ih _)

lemma rewriteBlock_insts (f : Function) {c : Block} (hne : c ≠ b) :
    (rewriteBlock removed replace f b).insts c = f.insts c :=
  Function.insts_congr (by rw [rewriteBlock_block?, if_neg hne])

lemma InstsApart.rewriteBlock
    (h : InstsApart f (b :: blocks)) (hb : b ∉ blocks) :
    InstsApart (rewriteBlock removed replace f b) blocks := by
  have hinsts : ∀ c ∈ blocks, (Ssa.rewriteBlock removed replace f b).insts c = f.insts c :=
    fun c hc => rewriteBlock_insts removed replace f (ne_of_mem_of_not_mem hc hb)
  refine ⟨fun c hc => ?_, fun c hc d hd => ?_⟩
  · rw [hinsts c hc]
    exact h.nodup c (mem_cons_of_mem _ hc)
  · rw [hinsts c hc, hinsts d hd]
    exact h.apart c (mem_cons_of_mem _ hc) d (mem_cons_of_mem _ hd)

lemma rewritten_block? (hblocks : blocks.Nodup) (c : Block) :
    (blocks.foldl (rewriteBlock removed replace) f).block? c =
      if c ∈ blocks then (f.block? c).map fun info =>
        { info with insts := info.insts.filter (!removed ·) }
      else f.block? c := by
  induction blocks generalizing f with
  | nil => simp
  | cons b blocks ih =>
    obtain ⟨hb, hrest⟩ := nodup_cons.mp hblocks
    rw [foldl_cons, ih hrest, rewriteBlock_block?]
    by_cases hc : c = b
    · subst hc
      simp [hb]
    · simp [hc]

lemma rewritten_value? (hblocks : blocks.Nodup)
    (h : InstsApart f blocks) (hb : b ∈ blocks) (hv : v ∈ f.insts b) :
    (blocks.foldl (rewriteBlock removed replace) f).value? v =
      (f.value? v).map (rewriteInfo removed replace v) := by
  have hother : ∀ (blocks : List Block) (f : Function), blocks.Nodup → InstsApart f blocks →
      (∀ c ∈ blocks, v ∉ f.insts c) →
        (blocks.foldl (rewriteBlock removed replace) f).value? v = f.value? v := by
    intro blocks
    induction blocks with
    | nil => exact fun _ _ _ _ => rfl
    | cons c blocks ih =>
      intro f hnodup h hnot
      obtain ⟨hc, hrest⟩ := nodup_cons.mp hnodup
      rw [foldl_cons, ih _ hrest (h.rewriteBlock removed replace hc),
        rewriteBlock_value? removed replace f (h.nodup c mem_cons_self),
        if_neg (hnot c mem_cons_self)]
      intro d hd
      rw [rewriteBlock_insts removed replace f (ne_of_mem_of_not_mem hd hc)]
      exact hnot d (mem_cons_of_mem _ hd)
  induction blocks generalizing f with
  | nil => cases hb
  | cons c blocks ih =>
    obtain ⟨hc, hrest⟩ := nodup_cons.mp hblocks
    have hvalue := rewriteBlock_value? removed replace f (h.nodup c mem_cons_self) v
    rw [foldl_cons]
    by_cases hbc : b = c
    · subst hbc
      rw [hother _ _ hrest (h.rewriteBlock removed replace hc), hvalue, if_pos hv]
      intro d hd hmem
      rw [rewriteBlock_insts removed replace f (ne_of_mem_of_not_mem hd hc)] at hmem
      exact hc (h.apart b hb d (mem_cons_of_mem _ hd) v hv hmem ▸ hd)
    · have hmem : b ∈ blocks := (mem_cons.mp hb).resolve_left hbc
      have hnot : v ∉ f.insts c := fun hv' =>
        hbc (h.apart b hb c mem_cons_self v hv hv')
      rw [ih hrest (h.rewriteBlock removed replace hc) hmem, hvalue, if_neg hnot]
      rwa [rewriteBlock_insts removed replace f hbc]

end Rewriting

section

variable {p : Function} {entry : Block} {doms : Dominators} {slots : List Slot}
  {homes : List (Slot × Block)} {placed : Placed} {walk : Renaming} {held : Block → Held}

/-! ### Replacements are computed above -/

/-- A value that is no load and is undefined, or computed further up in a block or in a block
above. -/
structure Grounded (p : Function) (entry : Block) (slots : List Slot) (placed : Placed)
    (walk : Renaming) (b : Block) (before : List Value) (w : Value) : Prop where
  not_load : ¬ IsLoad slots p w
  computed : (∃ ty, (ty, w) ∈ walk.undefs) ∨ w ∈ before ∨
    ∃ d, StrictlyDominates (Edge p) entry d b ∧ w ∈ placed.function.insts d

lemma Grounded.mono {before' : List Value}
    (h : Grounded p entry slots placed walk b before w) (hsub : before ⊆ before') :
    Grounded p entry slots placed walk b before' w :=
  ⟨h.not_load, h.computed.imp_right (Or.imp_left (hsub ·))⟩

lemma Grounded.below {d : Block} {before' : List Value}
    (h : Grounded p entry slots placed walk d before' w)
    (hsub : before' ⊆ placed.function.insts d) (hb : Reached p entry b)
    (hdb : StrictlyDominates (Edge p) entry d b) :
    Grounded p entry slots placed walk b before w := by
  refine ⟨h.not_load, ?_⟩
  rcases h.computed with hundef | hmem | ⟨e, hed, hmem⟩
  · exact .inl hundef
  · exact .inr (.inr ⟨d, hdb, hsub hmem⟩)
  · exact .inr (.inr ⟨e, .trans_left hed.1 hdb hb, hmem⟩)

lemma IsLoad.lt_size (hslots : Distinct slots) (h : IsLoad slots p v) : v.id < p.values.size := by
  obtain ⟨s, hacc⟩ := h
  obtain ⟨-, ty, hinst⟩ := (access?_eq_load_iff hslots).mp hacc
  exact Function.lt_size_of_inst? hinst

lemma mem_of_lookup {held : Held} {a : Value} (h : held.lookup a = some w) : (a, w) ∈ held := by
  obtain ⟨before, after, heq, -⟩ := lookup_eq_some_iff.mp h
  rw [heq]
  exact mem_append_right _ mem_cons_self

namespace Renamed

section

variable (h : Stage p entry doms slots homes placed)
  (hr : Renamed p entry doms slots homes placed walk held)
include h hr

lemma source_grounded {held' : Held}
    (hheld : ∀ e ∈ held', Grounded p entry slots placed walk b before e.2) {s : Slot} {w : Value}
    (hsource : SourceOf walk.undefs s (held'.lookup s.address) w) :
    Grounded p entry slots placed walk b before w := by
  cases hl : held'.lookup s.address with
  | some x =>
    rw [hl] at hsource
    rw [hsource]
    exact hheld _ (mem_of_lookup hl)
  | none =>
    rw [hl] at hsource
    refine ⟨fun hload => ?_, .inl ⟨s.ty, hsource⟩⟩
    have := hload.lt_size h.distinct
    have := (hr.walked.undef_lt hsource).1
    dsimp only at this
    omega

lemma grounded_in (hb : Reached p entry b)
    (hstart : ∀ e ∈ held b, Grounded p entry slots placed walk b [] e.2)
    (habove : ∀ d, StrictlyDominates (Edge p) entry d b → ∀ x ∈ p.insts d,
      Grounded p entry slots placed walk b [] (repOf walk x))
    (before after : List Value) (hsplit : placed.function.insts b = before ++ after) :
    (∀ e ∈ holdAfter slots p placed walk (held b) before,
      Grounded p entry slots placed walk b before e.2) ∧
    ∀ x ∈ before, Grounded p entry slots placed walk b before (repOf walk x) := by
  induction before using List.reverseRecOn generalizing after with
  | nil => exact ⟨hstart, by simp⟩
  | append_singleton before v ih =>
    have hsplit' : placed.function.insts b = before ++ v :: after := by
      rw [hsplit]
      simp
    obtain ⟨hheld, hreps⟩ := ih (v :: after) hsplit'
    have hsub : before ⊆ before ++ [v] := subset_append_left _ _
    refine ⟨fun e he => ?_, fun x hx => ?_⟩
    · have hstep : holdAfter slots p placed walk (held b) (before ++ [v]) =
          holdStep slots p placed.phis (repOf walk)
            (holdAfter slots p placed walk (held b) before) v := by
        rw [holdAfter, foldl_append]
        rfl
      rw [hstep, holdStep] at he
      split at he
      · next s hphi =>
        rcases mem_cons.mp he with rfl | he
        · refine ⟨fun hload => ?_, .inr (.inl (by simp))⟩
          rw [h.inserted.lookup_old (hload.lt_size h.distinct)] at hphi
          cases hphi
        · exact (hheld e he).mono hsub
      · split at he
        · next s x hacc =>
          rcases mem_cons.mp he with rfl | he
          · obtain ⟨-, hinst⟩ := (access?_eq_store_iff h.distinct).mp hacc
            rcases h.operand_before hb hsplit' hinst rfl (w := x) (by simp [Inst.operands]) with
              hx | ⟨d, hd, hx⟩
            · exact (hreps x hx).mono hsub
            · exact (habove d hd x hx).mono (nil_subset _)
          · exact (hheld e he).mono hsub
        · exact (hheld e he).mono hsub
    · rcases mem_append.mp hx with hx | hx
      · exact (hreps x hx).mono hsub
      · obtain rfl := mem_singleton.mp hx
        by_cases hload : IsLoad slots p x
        · obtain ⟨s, hacc⟩ := hload
          exact (source_grounded h hr hheld
            (hr.load_source b hb before x after s hsplit' hacc)).mono hsub
        · rw [hr.agrees.other x hload]
          exact ⟨hload, .inr (.inl (by simp))⟩

/-- What the slots hold, and what stands for a value further up or above, is grounded. -/
lemma grounded (hb : Reached p entry b) {after : List Value}
    (hsplit : placed.function.insts b = before ++ after) :
    (∀ e ∈ holdAfter slots p placed walk (held b) before,
      Grounded p entry slots placed walk b before e.2) ∧
    (∀ x ∈ before, Grounded p entry slots placed walk b before (repOf walk x)) ∧
    ∀ d, StrictlyDominates (Edge p) entry d b → ∀ x ∈ p.insts d,
      Grounded p entry slots placed walk b before (repOf walk x) := by
  induction hn : doms.order.idxOf b using Nat.strong_induction_on
    generalizing b before after with
  | _ n ih =>
    subst hn
    have habove : ∀ d, StrictlyDominates (Edge p) entry d b → ∀ x ∈ p.insts d,
        Grounded p entry slots placed walk b [] (repOf walk x) := by
      intro d hd x hx
      have hdr := hd.1.reachable hb
      have hlt : doms.order.idxOf d < doms.order.idxOf b := by
        refine lt_of_le_of_ne (h.dom.idxOf_le h.pruned.predsAgree hb hd.1) fun heq => hd.2 ?_
        exact (idxOf_inj ((h.dom.mem_order_iff d).mpr hdr)).mp heq
      obtain ⟨-, hreps, -⟩ := ih _ hlt hdr (append_nil _).symm rfl
      exact (hreps x (h.mem_insts.mpr (.inl hx))).below (fun _ hy => hy) hb hd
    have hstart : ∀ e ∈ held b, Grounded p entry slots placed walk b [] e.2 := by
      by_cases hne : b = entry
      · rw [hne, hr.held_entry]
        simp
      · obtain ⟨d, hidom⟩ := h.dom.idom_exists b hb hne
        obtain ⟨-, hdb⟩ := (h.dom.idom_iff b d).mp hidom
        rw [hr.held_child b d hidom]
        obtain ⟨hheld, -⟩ := ih _ (h.dom.idxOf_lt h.pruned.predsAgree hidom)
          (hdb.1.1.reachable hb) (append_nil _).symm rfl
        exact fun e he => (hheld e he).below (fun _ hy => hy) hb hdb.1
    obtain ⟨hheld, hreps⟩ := hr.grounded_in h hb hstart habove before after hsplit
    exact ⟨hheld, hreps, fun d hd x hx => (habove d hd x hx).mono (nil_subset _)⟩

/-- What replaces a load is no load, so a chain of replacements ends after one step. -/
lemma resolve_eq (x : Value) : resolve walk.reads (walk.reads.length + 1) x = repOf walk x := by
  rw [resolve, repOf]
  cases hx : walk.reads.lookup x with
  | none => rfl
  | some w =>
    have hmem := mem_of_lookup hx
    obtain ⟨-, d, hd, hxd⟩ := (hr.keyed x).mp (mem_map.mpr ⟨_, hmem, rfl⟩)
    obtain ⟨-, hreps, -⟩ := hr.grounded h hd (append_nil _).symm
    have hw := (hreps x (h.mem_insts.mpr (.inl hxd))).not_load
    rw [hr.agrees.read _ hmem] at hw
    have hnone : walk.reads.lookup w = none := by
      rw [lookup_eq_none_iff]
      intro e he
      rw [bne_iff_ne]
      rintro rfl
      exact hw ((hr.keyed _).mp (mem_map.mpr ⟨e, he, rfl⟩)).1
    change resolve walk.reads walk.reads.length w = w
    cases walk.reads.length with
    | zero => rfl
    | succ n => rw [resolve, hnone]

end

end Renamed

/-! ### The renamed function -/

lemma nodup_append_middle {α : Type} {xs ys zs : List α} (h : (xs ++ zs).Nodup) (hys : ys.Nodup)
    (hapart : ∀ y ∈ ys, y ∉ xs ++ zs) : (xs ++ ys ++ zs).Nodup := by
  have hperm : (xs ++ ys ++ zs).Perm (ys ++ (xs ++ zs)) := by
    rw [← append_assoc]
    exact perm_append_comm.append_right zs
  rw [hperm.nodup_iff]
  exact nodup_append.mpr ⟨hys, h, fun y hy z hz heq => hapart y hy (heq ▸ hz)⟩

/-! ### The promoted function -/

/-- Promotion drops the slots and what accesses them. -/
def isDropped (slots : List Slot) (p : Function) (v : Value) : Bool :=
  slots.any (·.address = v) || (access? slots p v).isSome

lemma isDropped_iff : isDropped slots p v = true ↔
    (∃ s ∈ slots, s.address = v) ∨ (∃ s, access? slots p v = some (s, .load)) ∨
      ∃ s x, access? slots p v = some (s, .store x) := by
  rw [isDropped, Bool.or_eq_true, any_eq_true]
  simp only [decide_eq_true_eq]
  refine or_congr_right ?_
  rcases access? slots p v with _ | ⟨s, _ | x⟩ <;> simp

/-- What is dropped is a slot, a load or a store. -/
def isSlotInst : Inst → Bool
  | .alloca .. | .load .. | .store .. => true
  | _ => false

lemma not_isSlotInst_of_isParam (inst : Inst) (h : inst.isParam = true) :
    isSlotInst inst = false := by
  cases inst <;> first | rfl | cases h

lemma not_isSlotInst_of_isPhi (inst : Inst) (h : inst.isPhi = true) : isSlotInst inst = false := by
  cases inst <;> first | rfl | cases h

lemma Stage.isSlotInst_of_isDropped (h : Stage p entry doms slots homes placed)
    (hv : isDropped slots p v = true) : p.instIs isSlotInst v = true := by
  rcases isDropped_iff.mp hv with ⟨s, hs, rfl⟩ | ⟨s, hacc⟩ | ⟨s, x, hacc⟩
  · rw [Function.instIs, ((h.slots_iff s).mp hs).alloca]
    rfl
  · obtain ⟨-, ty, hinst⟩ := (access?_eq_load_iff h.distinct).mp hacc
    rw [Function.instIs, hinst]
    rfl
  · obtain ⟨-, hinst⟩ := (access?_eq_store_iff h.distinct).mp hacc
    rw [Function.instIs, hinst]
    rfl

lemma Stage.not_isDropped (h : Stage p entry doms slots homes placed)
    (hv : p.instIs isSlotInst v = false) : isDropped slots p v = false := by
  by_contra hne
  rw [h.isSlotInst_of_isDropped (Bool.not_eq_false _ ▸ hne)] at hv
  cases hv

lemma Stage.not_isDropped_of_le (h : Stage p entry doms slots homes placed)
    (hv : p.values.size ≤ v.id) : isDropped slots p v = false :=
  h.not_isDropped (by rw [Function.instIs, p.inst?_eq_none v hv]; rfl)

lemma Stage.not_isDropped_of_instIs (h : Stage p entry doms slots homes placed)
    {kind : Inst → Bool} (hv : p.instIs kind v = true)
    (hkind : ∀ inst, kind inst = true → isSlotInst inst = false) : isDropped slots p v = false :=
  h.not_isDropped (p.instIs_eq_false hv hkind)

/-- How the promoted function comes about from the function before. -/
structure Promoted (p : Function) (entry : Block) (slots : List Slot) (homes : List (Slot × Block))
    (placed : Placed) (walk : Renaming) (held : Block → Held) (g : Function) : Prop where
  layout_eq : g.layout = p.layout
  params_eq : g.params = p.params
  ret_eq : g.ret = p.ret
  blocks_size : g.blocks.size = p.blocks.size
  preds_eq : ∀ b, g.preds b = p.preds b
  insts_entry : g.insts entry = p.params ++ (walk.undefs.map Prod.snd).reverse ++
    ((p.insts entry).drop p.params.length).filter (!isDropped slots p ·)
  insts_eq : ∀ b, Reached p entry b → b ≠ entry → g.insts b =
    p.phis b ++ newPhis p homes b ++ (p.afterPhis b).filter (!isDropped slots p ·)
  inst_kept : ∀ b, Reached p entry b → ∀ v ∈ p.insts b, isDropped slots p v = false →
    g.inst? v = (p.inst? v).map (Inst.mapOperands (repOf walk))
  inst_phi : ∀ (i : Nat) (s : Slot) (b : Block), homes[i]? = some (s, b) → ∃ args,
    g.inst? ⟨p.values.size + i⟩ = some (.phi s.ty args) ∧ args.length = (p.preds b).length ∧
      ∀ (j : Nat) (q : Block), (p.preds b)[j]? = some q → ∃ w, args[j]? = some w ∧
        SourceOf walk.undefs s
          ((holdAfter slots p placed walk (held q) (placed.function.insts q)).lookup s.address) w
  inst_undef : ∀ e ∈ walk.undefs, g.inst? e.2 = some (.undef e.1)
  block_old : ∀ b, Reached p entry b → ∀ v ∈ p.insts b, isDropped slots p v = false →
    (g.value? v).map ValueInfo.block = (p.value? v).map ValueInfo.block
  block_new : ∀ b, Reached p entry b → ∀ v ∈ g.insts b, p.values.size ≤ v.id →
    (g.value? v).map ValueInfo.block = some (some b)

namespace Walked

section

variable (hw : Walked p entry homes placed walk)
include hw

lemma mem_entry (hp : Pruned p entry) :
    v ∈ walk.function.insts entry ↔ v ∈ p.insts entry ∨ ∃ ty, (ty, v) ∈ walk.undefs := by
  have hsplit := List.prefix_iff_eq_append.mp hp.params_lead
  rw [hw.entry_eq, ← hsplit]
  simp only [mem_append, mem_reverse, mem_map, Prod.exists, exists_eq_right]
  rw [hsplit]
  tauto

/-- An instruction of the renamed function is an old one, an inserted phi or undefined. -/
lemma mem_insts (h : Stage p entry doms slots homes placed) (hv : v ∈ walk.function.insts b) :
    v ∈ p.insts b ∨ (∃ i s, homes[i]? = some (s, b) ∧ v = ⟨p.values.size + i⟩) ∨
      b = entry ∧ ∃ ty, (ty, v) ∈ walk.undefs := by
  by_cases hb : b = entry
  · subst hb
    rcases (hw.mem_entry h.pruned).mp hv with hv | hv
    · exact .inl hv
    · exact .inr (.inr ⟨rfl, hv⟩)
  · rw [hw.insts_eq b hb] at hv
    exact (h.mem_insts.mp hv).imp_right fun hnew => .inl (mem_newPhis_iff.mp hnew)

lemma inst_phi {i : Nat} {s : Slot} (hget : homes[i]? = some (s, b)) :
    walk.function.inst? ⟨p.values.size + i⟩ =
      some (.phi s.ty (argsOf walk.function ⟨p.values.size + i⟩)) := by
  obtain ⟨info, args, hinfo, hinst, -⟩ := hw.phi_value i s b hget
  have hphi : walk.function.inst? ⟨p.values.size + i⟩ = some (.phi s.ty args) := by
    rw [Function.inst?, hinfo, Option.map_some, hinst]
  rw [argsOf, hphi]

lemma inst_undef {e : Ty × Value} (he : e ∈ walk.undefs) :
    walk.function.inst? e.2 = some (.undef e.1) := by
  obtain ⟨info, hinfo, hinst, -⟩ := hw.undef_value e he
  rw [Function.inst?, hinfo, Option.map_some, hinst]

/-- What the renamed function drops is told by the function before. -/
lemma access?_eq (h : Stage p entry doms slots homes placed)
    (hb : Reached p entry b) (hv : v ∈ walk.function.insts b) :
    access? slots walk.function v = access? slots p v := by
  have hnone : ∀ {v : Value}, p.values.size ≤ v.id → access? slots p v = none := by
    intro v hge
    rw [access?, p.inst?_eq_none v hge]
  rcases hw.mem_insts h hv with hold | ⟨i, s, hget, rfl⟩ | ⟨rfl, ty, hundef⟩
  · exact access?_congr (hw.inst_old (h.pruned.lt_size hb hold))
  · rw [hnone (by simp), access?, hw.inst_phi hget]
  · have hge := (hw.undef_lt hundef).1
    dsimp only at hge
    rw [hnone (by omega), access?, hw.inst_undef hundef]

lemma undefs_nodup : (walk.undefs.map Prod.snd).Nodup := by
  have hrange : walk.undefs.map Prod.snd = (List.range walk.undefs.length).map fun i =>
      ⟨p.values.size + homes.length + i⟩ := by
    refine ext_getElem? fun i => ?_
    rw [getElem?_map, getElem?_map]
    cases hget : walk.undefs[i]? with
    | none =>
      rw [getElem?_eq_none (by simpa using hget)]
      rfl
    | some e =>
      obtain ⟨hi, -⟩ := List.getElem?_eq_some_iff.mp hget
      rw [List.getElem?_range hi]
      exact congrArg some (hw.undef_id i e.1 e.2 hget)
  rw [hrange]
  refine List.nodup_range.map fun i j hij => ?_
  have := congrArg Value.id hij
  dsimp only at this
  omega

lemma instsApart (h : Stage p entry doms slots homes placed) :
    InstsApart walk.function p.layout := by
  refine ⟨fun b hb => ?_, fun b hb c hc v hv hv' => ?_⟩
  · have hr := h.pruned.layout_reached b hb
    have hnodup := h.pruned.insts_nodup b hr
    have hlt : ∀ v ∈ p.insts b, v.id < p.values.size := fun v hv => h.pruned.lt_size hr hv
    by_cases hne : b = entry
    · subst hne
      rw [← List.prefix_iff_eq_append.mp h.pruned.params_lead] at hnodup hlt
      rw [hw.entry_eq]
      refine nodup_append_middle hnodup (nodup_reverse.mpr hw.undefs_nodup) fun v hv hold => ?_
      obtain ⟨e, he, rfl⟩ := mem_map.mp (mem_reverse.mp hv)
      have := hlt _ hold
      have := (hw.undef_lt he).1
      omega
    · rw [← p.phis_append_afterPhis] at hnodup hlt
      rw [hw.insts_eq b hne, h.arranged]
      refine nodup_append_middle hnodup (newPhis_nodup p homes b) fun v hv hold => ?_
      obtain ⟨i, s, -, rfl⟩ := mem_newPhis_iff.mp hv
      have := hlt _ hold
      dsimp only at this
      omega
  · have hbr := h.pruned.layout_reached b hb
    have hcr := h.pruned.layout_reached c hc
    have hid : ∀ {b v}, Reached p entry b → v ∈ walk.function.insts b →
        (v.id < p.values.size → v ∈ p.insts b) ∧
        (p.values.size ≤ v.id → v.id < p.values.size + homes.length →
          ∃ s, homes[v.id - p.values.size]? = some (s, b)) ∧
        (p.values.size + homes.length ≤ v.id → b = entry) := by
      intro b v hbr hv
      rcases hw.mem_insts h hv with hold | ⟨i, s, hget, rfl⟩ | ⟨rfl, ty, hundef⟩
      · have := h.pruned.lt_size hbr hold
        exact ⟨fun _ => hold, fun _ => by omega, fun _ => by omega⟩
      · have hi := (List.getElem?_eq_some_iff.mp hget).1
        refine ⟨fun _ => by dsimp only at *; omega, fun _ _ => ⟨s, ?_⟩,
          fun _ => by dsimp only at *; omega⟩
        rwa [Nat.add_sub_cancel_left]
      · have := (hw.undef_lt hundef).1
        dsimp only at this
        exact ⟨fun _ => by omega, fun _ _ => by omega, fun _ => rfl⟩
    obtain ⟨hold, hphi, hundef⟩ := hid hbr hv
    obtain ⟨hold', hphi', hundef'⟩ := hid hcr hv'
    by_cases h1 : v.id < p.values.size
    · exact h.pruned.home_unique b c hbr hcr v (hold h1) (hold' h1)
    · by_cases h2 : v.id < p.values.size + homes.length
      · obtain ⟨s, hs⟩ := hphi (by omega) h2
        obtain ⟨s', hs'⟩ := hphi' (by omega) h2
        rw [hs] at hs'
        exact (Prod.mk.inj (Option.some.inj hs')).2
      · rw [hundef (by omega), hundef' (by omega)]

end

end Walked

namespace Renamed

section

variable (h : Stage p entry doms slots homes placed)
  (hr : Renamed p entry doms slots homes placed walk held)
include h hr

lemma applyRenaming_eq : ∃ removed : Value → Bool,
      (∀ b, Reached p entry b → ∀ v ∈ walk.function.insts b, removed v = isDropped slots p v) ∧
      applyRenaming slots walk =
        p.layout.foldl (rewriteBlock removed (repOf walk)) walk.function := by
  have hlayout : walk.function.layout = p.layout := by rw [hr.walked.frame]
  refine ⟨fun v => slots.any (·.address = v) || (walk.function.placedValues.filter fun v =>
    (access? slots walk.function v).isSome).contains v, fun b hb v hv => ?_, ?_⟩
  · have hmem : v ∈ walk.function.placedValues :=
      mem_flatMap.mpr ⟨b, hlayout ▸ h.pruned.listed b hb, hv⟩
    rw [isDropped, ← hr.walked.access?_eq h hb hv]
    simp [hmem]
  · rw [applyRenaming, funext (hr.resolve_eq h), hlayout]

lemma value?_applyRenaming (hb : Reached p entry b)
    (hv : v ∈ walk.function.insts b) (hkept : isDropped slots p v = false) :
    (applyRenaming slots walk).value? v = (walk.function.value? v).map fun info =>
      { info with inst := info.inst.mapOperands (repOf walk) } := by
  obtain ⟨removed, hremoved, heq⟩ := hr.applyRenaming_eq h
  rw [heq, rewritten_value? removed (repOf walk) h.pruned.layout_nodup (hr.walked.instsApart h)
    (h.pruned.listed b hb) hv]
  unfold rewriteInfo
  rw [hremoved b hb v hv, hkept]
  rfl

lemma inst?_applyRenaming (hb : Reached p entry b)
    (hv : v ∈ walk.function.insts b) (hkept : isDropped slots p v = false) :
    (applyRenaming slots walk).inst? v =
      (walk.function.inst? v).map (Inst.mapOperands (repOf walk)) := by
  rw [Function.inst?, hr.value?_applyRenaming h hb hv hkept, Function.inst?, Option.map_map,
    Option.map_map]
  rfl

lemma block_applyRenaming (hb : Reached p entry b)
    (hv : v ∈ walk.function.insts b) (hkept : isDropped slots p v = false) :
    ((applyRenaming slots walk).value? v).map ValueInfo.block =
      (walk.function.value? v).map ValueInfo.block := by
  rw [hr.value?_applyRenaming h hb hv hkept, Option.map_map]
  rfl

lemma insts_applyRenaming (hb : Reached p entry b) :
    (applyRenaming slots walk).insts b =
      (walk.function.insts b).filter (!isDropped slots p ·) := by
  obtain ⟨removed, hremoved, heq⟩ := hr.applyRenaming_eq h
  rw [← filter_congr fun v hv => congrArg (! ·) (hremoved b hb v hv), Function.insts, heq,
    rewritten_block? removed (repOf walk) h.pruned.layout_nodup, if_pos (h.pruned.listed b hb),
    Function.insts]
  cases walk.function.block? b <;> rfl

lemma preds_applyRenaming (b : Block) : (applyRenaming slots walk).preds b = p.preds b := by
  obtain ⟨removed, -, heq⟩ := hr.applyRenaming_eq h
  rw [← hr.walked.preds_eq, Function.preds, heq,
    rewritten_block? removed (repOf walk) h.pruned.layout_nodup, Function.preds]
  split <;> cases walk.function.block? b <;> rfl

/-- The arguments of an inserted phi are no loads, so replacing leaves them. -/
lemma phi_applyRenaming {i : Nat} {s : Slot} (hget : homes[i]? = some (s, b)) : ∃ args,
    (applyRenaming slots walk).inst? ⟨p.values.size + i⟩ = some (.phi s.ty args) ∧
      args.length = (p.preds b).length ∧
      ∀ (j : Nat) (q : Block), (p.preds b)[j]? = some q → ∃ w, args[j]? = some w ∧
        SourceOf walk.undefs s
          ((holdAfter slots p placed walk (held q) (placed.function.insts q)).lookup s.address)
          w := by
  have hw := hr.walked
  obtain ⟨-, hb, hne⟩ := h.homes_get hget
  have hmem : (⟨p.values.size + i⟩ : Value) ∈ walk.function.insts b := by
    rw [hw.insts_eq b hne, h.mem_insts]
    exact .inr (mem_newPhis_iff.mpr ⟨i, s, hget, rfl⟩)
  refine ⟨(argsOf walk.function ⟨p.values.size + i⟩).map (repOf walk), ?_, ?_, fun j q hq => ?_⟩
  · rw [hr.inst?_applyRenaming h hb hmem (h.not_isDropped_of_le (by simp)), hw.inst_phi hget]
    rfl
  · rw [length_map, hw.length_argsOf hget]
  · have hqr := h.pruned.preds_reached b hb q (mem_of_getElem? hq)
    have hedge := (h.pruned.predsAgree q b hqr hb).mp (mem_of_getElem? hq)
    obtain ⟨w, hargs, hsource⟩ := hr.arg_source q b hqr hedge i s hget j hq
    refine ⟨w, ?_, hsource⟩
    obtain ⟨hheld, -⟩ := hr.grounded h hqr (append_nil _).symm
    rw [getElem?_map, hargs, Option.map_some,
      hr.agrees.other w (source_grounded h hr hheld hsource).not_load]

/-- Dropping accesses and replacing loads gives the promoted function. -/
theorem promoted : Promoted p entry slots homes placed walk held (applyRenaming slots walk) := by
  have hw := hr.walked
  obtain ⟨removed, -, heq⟩ := hr.applyRenaming_eq h
  have hframe := rewritten_frame removed (repOf walk) walk.function p.layout
  rw [← heq] at hframe
  have hold : ∀ b, Reached p entry b → ∀ v ∈ p.insts b, v ∈ walk.function.insts b := by
    intro b hb v hv
    by_cases hne : b = entry
    · exact hne ▸ (hw.mem_entry h.pruned).mpr (.inl (hne ▸ hv))
    · rw [hw.insts_eq b hne, h.mem_insts]
      exact .inl hv
  have hundef : ∀ {ty u}, (ty, u) ∈ walk.undefs → isDropped slots p u = false := by
    intro ty u hu
    have := (hw.undef_lt hu).1
    dsimp only at this
    exact h.not_isDropped_of_le (by omega)
  refine ⟨?_, ?_, ?_, ?_, hr.preds_applyRenaming h, ?_, fun b hb hne => ?_, fun b hb v hv hkept => ?_,
    fun i s b => hr.phi_applyRenaming h, fun e he => ?_, fun b hb v hv hkept => ?_,
    fun b hb v hv hge => ?_⟩
  · rw [hframe.layout, hw.frame]
  · rw [hframe.params, hw.frame]
  · rw [hframe.ret, hw.frame]
  · rw [hframe.blocks_size, hw.blocks_size]
  · rw [hr.insts_applyRenaming h .at_entry, hw.entry_eq, filter_append, filter_append]
    congr 2
    · refine filter_eq_self.mpr fun v hv => ?_
      rw [h.not_isDropped_of_instIs (h.pruned.params_param v hv) not_isSlotInst_of_isParam]
      rfl
    · refine filter_eq_self.mpr fun v hv => ?_
      obtain ⟨e, he, rfl⟩ := mem_map.mp (mem_reverse.mp hv)
      rw [hundef he]
      rfl
  · rw [hr.insts_applyRenaming h hb, hw.insts_eq b hne, h.arranged, filter_append,
      filter_append]
    congr 2
    · refine filter_eq_self.mpr fun v hv => ?_
      rw [h.not_isDropped_of_instIs (p.instIs_of_mem_phis hv) not_isSlotInst_of_isPhi]
      rfl
    · refine filter_eq_self.mpr fun v hv => ?_
      obtain ⟨i, s, -, rfl⟩ := mem_newPhis_iff.mp hv
      rw [h.not_isDropped_of_le (by simp)]
      rfl
  · rw [hr.inst?_applyRenaming h hb (hold b hb v hv) hkept,
      hw.inst_old (h.pruned.lt_size hb hv)]
  · rw [hr.inst?_applyRenaming h .at_entry ((hw.mem_entry h.pruned).mpr (.inr ⟨e.1, he⟩))
      (hundef he), hw.inst_undef he]
    rfl
  · rw [hr.block_applyRenaming h hb (hold b hb v hv) hkept,
      hw.old_value v (h.pruned.lt_size hb hv)]
  · rw [hr.insts_applyRenaming h hb] at hv
    have hv := (mem_filter.mp hv).1
    rw [hr.block_applyRenaming h hb hv (h.not_isDropped_of_le hge)]
    rcases hw.mem_insts h hv with hold | ⟨i, s, hget, rfl⟩ | ⟨rfl, ty, hmem⟩
    · have := h.pruned.lt_size hb hold
      omega
    · obtain ⟨info, args, hinfo, -, -, hblock⟩ := hw.phi_value i s b hget
      rw [hinfo, Option.map_some, hblock]
    · obtain ⟨info, hinfo, -, hblock⟩ := hw.undef_value _ hmem
      rw [hinfo, Option.map_some, hblock]

end

end Renamed

end

end SsaLowering.Proofs
