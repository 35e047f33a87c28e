import SsaLowering.Proofs.Cursor
import SsaLowering.Proofs.References
import SsaLowering.Proofs.Verification

/-!
# Finished code

Once every block has been ended, code that was well formed under construction is a well-formed
function: what was said to be available in a block is computed on every path to it.
-/

namespace SsaLowering.Proofs

open Ir List
open Ir.Builder (firstBlock)

variable {v w : Value} {t : Block}

/-- Phis and stores are where promotion expects them: the entry has no phi, and no instruction uses
a store. -/
structure Plain (f : Function) (entry : Block) : Prop where
  entry_phi : ∀ v ∈ f.insts entry, f.instIs Inst.isPhi v = false
  stores_unused : ∀ b, Reached f entry b → ∀ v ∈ f.insts b, ∀ inst, f.inst? v = some inst →
    ∀ w ∈ inst.operands, f.instIs isStore w = false

/-- A builder with which nothing is left to do. -/
structure Finished (A : Avail) (b : Builder) : Prop extends Coherent A b where
  ended : ∀ t : Block, t.id < b.function.blocks.size → (codeOf b).Ended t

lemma Formed.head_inst {A : Avail} {c : Code} (h : Formed A c) (hv : v ∈ c.head) :
    ∃ inst, c.inst v = some inst ∧ isHeadInst inst = true ∧
      (inst.isParam = true → v ∈ c.params) := by
  obtain ⟨slots, heq, hslots⟩ := h.head_eq
  rw [heq, mem_append] at hv
  rcases hv with hv | hv
  · obtain ⟨i, hi⟩ := mem_iff_getElem?.mp hv
    obtain ⟨ty, hinst⟩ := h.params_eq i v hi
    exact ⟨_, hinst, rfl, fun _ => hv⟩
  · obtain ⟨ty, pinned, hinst⟩ := hslots v hv
    exact ⟨_, hinst, rfl, nofun⟩

lemma head_inst_plain {inst : Inst} (h : isHeadInst inst = true) :
    inst.isPhi = false ∧ inst.isTerminator = false ∧ inst.operands = [] ∧ inst.successors = [] := by
  cases inst <;> first | exact ⟨rfl, rfl, rfl, rfl⟩ | cases h

lemma isStore_eq_false {inst : Inst} (h : isHeadInst inst = true) : isStore inst = false := by
  cases inst <;> first | rfl | cases h

namespace Finished

variable {A : Avail} {b : Builder}

lemma inst_cases (h : Finished A b) (hv : v ∈ b.function.insts t) :
    (t = firstBlock ∧ v ∈ b.head ∧ ∃ inst, b.function.inst? v = some inst ∧
      isHeadInst inst = true ∧ (inst.isParam = true → v ∈ b.function.params)) ∨
    ∃ before after inst, b.code t = before ++ v :: after ∧ b.function.inst? v = some inst ∧
      FormedInst A (codeOf b) t before inst after := by
  rcases Builder.mem_insts_iff.mp hv with hcode | ⟨rfl, hhead⟩
  · obtain ⟨before, after, heq⟩ := append_of_mem hcode
    obtain ⟨-, -, inst, hinst, hformed⟩ := h.formed.insts t before v after heq
    exact .inr ⟨before, after, inst, heq, hinst, hformed⟩
  · exact .inl ⟨rfl, hhead, h.formed.head_inst hhead⟩

lemma insts_eq_nil (ht : b.function.blocks.size ≤ t.id) : b.function.insts t = [] := by
  rw [Function.insts, show b.function.block? t = none from Array.getElem?_eq_none ht]
  rfl

lemma home_eq (h : Finished A b) (hv : v ∈ b.function.insts t) :
    (b.function.value? v).bind ValueInfo.block = some t := by
  rcases Builder.mem_insts_iff.mp hv with hcode | ⟨rfl, hhead⟩
  · exact (h.formed.inst_of_mem hcode).2.1
  · exact h.formed.head_home v hhead

lemma exists_of_mem (hv : v ∈ b.function.insts t) : t.id < b.function.blocks.size := by
  by_contra hge
  rw [insts_eq_nil (Nat.not_lt.mp hge)] at hv
  cases hv

lemma mem_layout_iff (h : Finished A b) (t : Block) :
    t ∈ b.function.layout ↔ t.id < b.function.blocks.size := by
  rw [h.rooted.layout_eq, mem_map]
  constructor
  · rintro ⟨i, hi, rfl⟩
    exact mem_range.mp hi
  · intro ht
    exact ⟨t.id, mem_range.mpr ht, rfl⟩

/-- The code of a block that was ended is not empty, so it is the last part of the block. -/
lemma getLast?_eq (h : Finished A b) (ht : t.id < b.function.blocks.size) :
    ∃ before v, b.code t = before ++ [v] ∧ (b.function.insts t).getLast? = some v ∧
      b.function.instIs Inst.isTerminator v = true := by
  obtain ⟨v, hlast, hterm⟩ := h.ended t ht
  obtain ⟨before, heq⟩ := getLast?_eq_some_iff.mp hlast
  refine ⟨before, v, heq, ?_, hterm⟩
  rw [Builder.insts_eq, show b.code t = before ++ [v] from heq, ← List.append_assoc,
    getLast?_concat]

lemma successors_eq (h : Finished A b) (t : Block) :
    b.function.successors t = (codeOf b).exits t := by
  rw [Function.successors_eq, Code.exits]
  by_cases ht : t.id < b.function.blocks.size
  · obtain ⟨before, v, heq, hlast, -⟩ := h.getLast?_eq ht
    rw [hlast, show (codeOf b).code t = before ++ [v] from heq, getLast?_concat]
    rfl
  · rw [insts_eq_nil (Nat.not_lt.mp ht), h.formed.code_eq_nil (Nat.not_lt.mp ht)]
    rfl

lemma target_exists (h : Finished A b) {p : Block} (hedge : Edge b.function p t) :
    t.id < b.function.blocks.size := by
  rw [Edge, h.successors_eq] at hedge
  exact (h.formed.target_exists hedge).2

lemma reached_exists (h : Finished A b) (ht : Reached b.function firstBlock t) :
    t.id < b.function.blocks.size := by
  refine ht.induction (motive := fun t => t.id < b.function.blocks.size) ?_ fun _ _ _ hedge _ => ?_
  · exact h.formed.nonempty
  · exact h.target_exists hedge

lemma insts_nodup (h : Finished A b) (t : Block) : (b.function.insts t).Nodup := by
  rw [Builder.insts_eq]
  split
  · refine nodup_append.mpr ⟨h.formed.head_nodup, h.formed.code_nodup t, ?_⟩
    rintro v hv _ hv' rfl
    exact h.formed.head_not_code hv t hv'
  · exact h.formed.code_nodup t

/-! ### Available values are computed on every path -/

lemma computed_before (h : Finished A b) {trail : List Block}
    (hpath : Path (Edge b.function) firstBlock t trail) (hw : A t w) :
    ∃ d ∈ trail.tail, w ∈ b.function.insts d := by
  induction hpath with
  | start => exact absurd hw (h.formed.entry_avail w)
  | @step p t trail before next ih =>
    rw [Edge, h.successors_eq] at next
    obtain ⟨code, v, inst, heq, -, ht, hformed⟩ := h.formed.exit_spec next
    rcases (hformed.targets t ht).2.2 w hw with hp | hcode | hhead
    · obtain ⟨d, hd, hwd⟩ := ih hp
      exact ⟨d, mem_of_mem_tail hd, hwd⟩
    · refine ⟨p, before.mem_self, Builder.mem_insts_of_mem_code ?_⟩
      rw [show b.code p = code ++ [v] from heq]
      exact mem_append_left _ hcode
    · exact ⟨firstBlock, before.entry_mem, Builder.mem_insts_of_mem_head hhead⟩

lemma definedBy (h : Finished A b)
    (hw : AvailableAt A (codeOf b) t w) : DefinedBy b.function firstBlock w t := by
  intro trail hpath
  rcases hw.1 with havail | hcode | hhead
  · obtain ⟨d, hd, hwd⟩ := h.computed_before hpath havail
    exact ⟨d, mem_of_mem_tail hd, hwd⟩
  · exact ⟨t, hpath.mem_self, Builder.mem_insts_of_mem_code hcode⟩
  · exact ⟨firstBlock, hpath.entry_mem, Builder.mem_insts_of_mem_head hhead⟩

lemma take_eq (h : Finished A b) {before after : List Value} {place : Nat}
    (hcode : b.code t = before ++ v :: after) (hplace : (b.function.insts t)[place]? = some v) :
    (b.function.insts t).take place = (if t = firstBlock then b.head else []) ++ before := by
  have hnodup := h.insts_nodup t
  have hsplit : b.function.insts t =
      ((if t = firstBlock then b.head else []) ++ before) ++ v :: after := by
    rw [Builder.insts_eq, hcode, List.append_assoc]
  have hget : (b.function.insts t)[((if t = firstBlock then b.head else []) ++ before).length]? =
      some v := by
    rw [hsplit, getElem?_append_right le_rfl, Nat.sub_self]
    rfl
  have hlt := (List.getElem?_eq_some_iff.mp hplace).1
  rw [(List.getElem?_inj hlt hnodup).mp (hplace.trans hget.symm), hsplit, List.take_left]

/-- What an instruction can use by where it stands is computed before it. -/
lemma definedBefore (h : Finished A b) {before after : List Value}
    {place : Nat} (hcode : b.code t = before ++ v :: after)
    (hplace : (b.function.insts t)[place]? = some v) (hw : A t w ∨ w ∈ before ∨ w ∈ b.head) :
    DefinedBefore b.function firstBlock w t place := by
  intro earlier hpath
  rw [h.take_eq hcode hplace]
  rcases hw with havail | hbefore | hhead
  · obtain ⟨d, hd, hwd⟩ := h.computed_before hpath havail
    exact .inr ⟨d, hd, hwd⟩
  · exact .inl (mem_append_right _ hbefore)
  · by_cases ht : t = firstBlock
    · rw [if_pos ht]
      exact .inl (mem_append_left _ hhead)
    · have hmem := (mem_cons.mp hpath.entry_mem).resolve_left (Ne.symm ht)
      exact .inr ⟨firstBlock, hmem, Builder.mem_insts_of_mem_head hhead⟩

/-! ### The finished function -/

/-- A phi is the first instruction of its block, which is not the entry. -/
lemma insts_of_phi (h : Finished A b) (hv : v ∈ b.function.insts t)
    (hphi : b.function.instIs Inst.isPhi v = true) :
    t ≠ firstBlock ∧ ∃ after, b.function.insts t = v :: after := by
  rcases h.inst_cases hv with ⟨-, -, inst, hinst, hhead, -⟩ |
    ⟨before, after, inst, hcode, hinst, hformed⟩
  · rw [Function.instIs, hinst, Option.any_some, (head_inst_plain hhead).1] at hphi
    cases hphi
  · rw [Function.instIs, hinst] at hphi
    obtain ⟨ty, args, rfl⟩ : ∃ ty args, inst = .phi ty args := by
      cases inst <;> first | exact ⟨_, _, rfl⟩ | cases hphi
    obtain ⟨hne, rfl, -⟩ := hformed.phi ty args rfl
    exact ⟨hne, after, by rw [Builder.insts_eq, if_neg hne, hcode]; rfl⟩

lemma mem_afterPhis (h : Finished A b)
    (hv : v ∈ b.function.afterPhis t) : b.function.instIs Inst.isPhi v = false := by
  by_contra hphi
  have hphi := Bool.eq_true_of_not_eq_false hphi
  have hsplit := b.function.phis_append_afterPhis t
  have hmem : v ∈ b.function.insts t := hsplit ▸ mem_append_right _ hv
  obtain ⟨-, after, heq⟩ := h.insts_of_phi hmem hphi
  have hfirst : v ∈ b.function.phis t := by
    rw [Function.phis, heq, takeWhile_cons_of_pos hphi]
    exact mem_cons_self
  have hnodup := h.insts_nodup t
  rw [← hsplit, nodup_append] at hnodup
  exact hnodup.2.2 v hfirst v hv rfl

lemma terminator_last (h : Finished A b)
    (hv : v ∈ (b.function.insts t).dropLast) : b.function.instIs Inst.isTerminator v = false := by
  by_contra hterm
  have hterm := Bool.eq_true_of_not_eq_false hterm
  rcases h.inst_cases (mem_of_mem_dropLast hv) with ⟨-, -, inst, hinst, hhead, -⟩ |
    ⟨before, after, inst, hcode, hinst, hformed⟩
  · rw [Function.instIs, hinst, Option.any_some, (head_inst_plain hhead).2.1] at hterm
    cases hterm
  · rw [Function.instIs, hinst] at hterm
    have hnodup := h.insts_nodup t
    rw [Builder.insts_eq, hcode, hformed.last hterm, ← List.append_assoc] at hv hnodup
    rw [dropLast_concat] at hv
    exact (nodup_append.mp hnodup).2.2 v hv v mem_cons_self rfl

lemma preds_perm (h : Finished A b) (t : Block) :
    (b.function.preds t).Perm (b.function.edgeSources t) := by
  have hnodup : b.function.layout.Nodup := by
    rw [h.rooted.layout_eq]
    exact nodup_range.map fun _ _ heq => congrArg Block.id heq
  rw [perm_iff_count]
  intro p
  rw [Function.edgeSources, count_flatMap_replicate hnodup]
  refine (h.formed.edges p t).trans ?_
  rw [← h.successors_eq]
  split
  · rfl
  · next hp =>
    rw [h.mem_layout_iff, not_lt] at hp
    rw [Function.successors_eq, insts_eq_nil hp]
    rfl

theorem wellFormed (h : Finished A b) : WellFormed b.function firstBlock where
  entry_eq := by
    obtain ⟨n, hn⟩ : ∃ n, b.function.blocks.size = n + 1 :=
      ⟨_, (Nat.succ_pred_eq_of_pos h.formed.nonempty).symm⟩
    rw [Function.entry?, h.rooted.layout_eq, hn, range_succ_eq_map]
    rfl
  layout_nodup := by
    rw [h.rooted.layout_eq]
    exact nodup_range.map fun _ _ heq => congrArg Block.id heq
  listed t ht := (h.mem_layout_iff t).mpr (h.reached_exists ht)
  blocks_exist _ ht := h.reached_exists ht
  values_exist t _ v hv := by
    rcases h.inst_cases hv with ⟨-, -, inst, hinst, -⟩ | ⟨_, _, inst, _, hinst, _⟩ <;>
      rw [hinst] <;> rfl
  insts_nodup t _ := h.insts_nodup t
  home_unique t u _ _ v hv hv' := Option.some.inj ((h.home_eq hv).symm.trans (h.home_eq hv'))
  terminated t ht := by
    obtain ⟨-, v, -, hlast, hterm⟩ := h.getLast?_eq (h.reached_exists ht)
    exact b.function.terminator?_isSome_iff.mpr ⟨v, hlast, hterm⟩
  terminator_last _ _ _ hv := h.terminator_last hv
  preds_perm t _ := h.preds_perm t
  entry_preds := h.formed.preds_first
  phis_first _ _ _ hv := h.mem_afterPhis hv
  phi_arity t _ v hv ty args hinst := by
    rcases h.inst_cases (Function.phis_subset _ hv) with ⟨-, -, inst, hinst', hhead, -⟩ |
      ⟨before, after, inst, -, hinst', hformed⟩
    all_goals obtain rfl := Option.some.inj (hinst.symm.trans hinst')
    · cases hhead
    · exact (hformed.phi ty args rfl).2.2.1
  params_lead := by
    obtain ⟨slots, heq, -⟩ := h.formed.head_eq
    rw [Builder.insts_eq, if_pos rfl, show b.head = _ from heq, List.append_assoc]
    exact List.prefix_append _ _
  params_param v hv := by
    obtain ⟨i, hi⟩ := mem_iff_getElem?.mp hv
    obtain ⟨ty, hinst⟩ := h.formed.params_eq i v hi
    rw [Function.instIs, show b.function.inst? v = _ from hinst]
    rfl
  params_only t _ v hv hparam := by
    rcases h.inst_cases hv with ⟨-, -, inst, hinst, -, hmem⟩ | ⟨_, _, inst, _, hinst, hformed⟩
    all_goals rw [Function.instIs, hinst] at hparam
    · exact hmem hparam
    · have hplain := hformed.plain
      cases inst <;> first | cases hplain; done | cases hparam
  alloca_entry t _ v hv ty pinned hinst := by
    rcases h.inst_cases hv with ⟨rfl, -⟩ | ⟨_, _, inst, _, hinst', hformed⟩
    · rfl
    · obtain rfl := Option.some.inj (hinst.symm.trans hinst')
      cases hformed.plain
  defined t _ place v inst hplace hinst hphi w hw := by
    rcases h.inst_cases (mem_of_getElem? hplace) with ⟨-, -, inst', hinst', hhead, -⟩ |
      ⟨before, after, inst', hcode, hinst', hformed⟩
    all_goals obtain rfl := Option.some.inj (hinst.symm.trans hinst')
    · rw [(head_inst_plain hhead).2.2.1] at hw
      cases hw
    · exact h.definedBefore hcode hplace (hformed.operands hphi w hw)
  phi_defined t _ v hv ty args hinst edge hedge _ := by
    rcases h.inst_cases hv with ⟨-, -, inst, hinst', hhead, -⟩ |
      ⟨before, after, inst, -, hinst', hformed⟩
    all_goals obtain rfl := Option.some.inj (hinst.symm.trans hinst')
    · cases hhead
    · exact h.definedBy ((hformed.phi ty args rfl).2.2.2 edge hedge).2

lemma homed (h : Finished A b) : Homed b.function :=
  fun _ _ _ hv => h.home_eq hv

lemma plain (h : Finished A b) : Plain b.function firstBlock where
  entry_phi v hv := by
    by_contra hphi
    exact (h.insts_of_phi hv (Bool.eq_true_of_not_eq_false hphi)).1 rfl
  stores_unused t _ v hv inst hinst w hw := by
    rcases h.inst_cases hv with ⟨-, -, inst', hinst', hhead, -⟩ | ⟨_, _, inst', _, hinst', hformed⟩
    all_goals obtain rfl := Option.some.inj (hinst.symm.trans hinst')
    · rw [(head_inst_plain hhead).2.2.1] at hw
      cases hw
    · rcases hformed.usable w hw with husable | ⟨hhead, -⟩
      · exact husable.2.1
      · obtain ⟨inst', hinst', hhead, -⟩ := h.formed.head_inst hhead
        change (codeOf b).instIs isStore w = false
        rw [Code.instIs, hinst']
        exact isStore_eq_false hhead

lemma placed (h : Finished A b) {info : ValueInfo}
    (hv : b.function.value? v = some info) : ∃ t, info.block = some t ∧ v ∈ b.function.insts t := by
  have hlt : v.id < b.function.values.size := (Array.getElem?_eq_some_iff.mp hv).1
  obtain ⟨t, ht⟩ := Option.isSome_iff_exists.mp ((h.formed.homed v).mp hlt)
  have hblock : (b.function.value? v).bind ValueInfo.block = some t := ht
  rw [hv] at hblock
  exact ⟨t, hblock, Builder.mem_insts_iff.mpr (h.formed.placed v t ht)⟩

theorem inRange (h : Finished A b) : InRange b.function := by
  have hvalue {info : ValueInfo} (hinfo : info ∈ b.function.values.toList) :
      ∃ v t, b.function.inst? v = some info.inst ∧ info.block = some t ∧
        v ∈ b.function.insts t := by
    obtain ⟨i, hi⟩ := mem_iff_getElem?.mp hinfo
    have hv : b.function.value? ⟨i⟩ = some info := by
      rw [Function.value?, ← Array.getElem?_toList]
      exact hi
    obtain ⟨t, ht, hmem⟩ := h.placed hv
    exact ⟨⟨i⟩, t, by rw [Function.inst?, hv]; rfl, ht, hmem⟩
  have hblock {info : BlockInfo} (hinfo : info ∈ b.function.blocks.toList) :
      ∃ t, b.function.insts t = info.insts ∧ b.function.preds t = info.preds := by
    obtain ⟨i, hi⟩ := mem_iff_getElem?.mp hinfo
    have ht : b.function.block? ⟨i⟩ = some info := by
      rw [Function.block?, ← Array.getElem?_toList]
      exact hi
    exact ⟨⟨i⟩, by rw [Function.insts, ht]; rfl, by rw [Function.preds, ht]; rfl⟩
  refine ⟨fun info hinfo w hw => ?_, fun info hinfo u hu => ?_, fun info hinfo u hu => ?_,
    fun info hinfo p hp => ?_, fun info hinfo v hv => ?_, fun v hv => ?_, ?_, fun t ht => ?_⟩
  · obtain ⟨v, t, hinst, -, hv⟩ := hvalue hinfo
    rcases h.inst_cases hv with ⟨-, -, inst, hinst', hhead, -⟩ | ⟨_, _, inst, _, hinst', hformed⟩
    all_goals obtain rfl := Option.some.inj (hinst.symm.trans hinst')
    · rw [(head_inst_plain hhead).2.2.1] at hw
      cases hw
    · exact (hformed.usable w hw).elim And.left fun hhead => h.formed.lt_of_mem_head hhead.1
  · obtain ⟨v, t, hinst, -, hv⟩ := hvalue hinfo
    rcases h.inst_cases hv with ⟨-, -, inst, hinst', hhead, -⟩ | ⟨_, _, inst, _, hinst', hformed⟩
    all_goals obtain rfl := Option.some.inj (hinst.symm.trans hinst')
    · rw [(head_inst_plain hhead).2.2.2] at hu
      cases hu
    · exact (hformed.targets u hu).2.1
  · obtain ⟨v, t, -, ht, hv⟩ := hvalue hinfo
    rw [ht] at hu
    obtain rfl := Option.some.inj hu
    exact exists_of_mem hv
  · obtain ⟨t, -, hpreds⟩ := hblock hinfo
    exact h.formed.pred_exists (show p ∈ b.function.preds t from hpreds ▸ hp)
  · obtain ⟨t, hinsts, -⟩ := hblock hinfo
    exact h.rooted.known t v (hinsts ▸ hv)
  · exact h.formed.lt_of_mem_params hv
  · rw [h.rooted.untagged]
    simp
  · exact (h.mem_layout_iff t).mp ht

end Finished

end SsaLowering.Proofs
