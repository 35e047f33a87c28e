import SsaLowering.Lowering.State
import SsaLowering.Proofs.Cursor
import SsaLowering.Proofs.Representation
import SsaLowering.Proofs.Verification

/-!
# Code that keeps the type rules

Where control gets to, the code that lowering makes keeps the type rules. What is known of the type of
a value stays true while code is added; of code that control does not get to, nothing is known.
-/

namespace SsaLowering.Proofs

open Ir Lowering
open Ir.Builder (Appended Created HeadLonger Joined)

/-! ### Instructions -/

/-- A slot holds values of its type. -/
def SlotRule (function : Function) : Inst → Prop
  | .load ty address =>
    ∀ held pinned, function.inst? address = some (.alloca held pinned) → ty = held
  | .store address stored =>
    ∀ held pinned, function.inst? address = some (.alloca held pinned) → function.ty stored = held
  | _ => True

/-- An instruction keeps the rules on the types of its operands, none of which is without a value. -/
structure Proper (function : Function) (layouts : LayoutTable) (inst : Inst) : Prop where
  operands : ∀ w ∈ inst.operands, function.ty w ≠ .void
  types : TypeRule function layouts inst
  slots : SlotRule function inst

/-- A value has a type that has values. -/
def HasTy (function : Function) (v : Value) (ty : Ty) : Prop :=
  function.ty v = ty ∧ ty ≠ .void

variable {F F' : Function} {layouts : LayoutTable} {inst : Inst} {v : Value} {ty : Ty}

lemma ty_congr (h : F'.inst? v = F.inst? v) : F'.ty v = F.ty v := by
  rw [Function.ty, Function.ty, h]

lemma ty_of_inst (h : F.inst? v = some inst) : F.ty v = inst.ty := by
  rw [Function.ty, h]
  rfl

/-- The type rules depend on the types of the operands alone. -/
lemma TypeRule.mapOperands (h : TypeRule F layouts inst) (hret : F'.ret = F.ret) {r : Value → Value}
    (hty : ∀ w ∈ inst.operands, F'.ty (r w) = F.ty w) : TypeRule F' layouts (inst.mapOperands r) := by
  cases inst with
  | phi ty args =>
    intro arg harg
    obtain ⟨w, hw, rfl⟩ := List.mem_map.mp harg
    exact (hty w hw).trans (h w hw)
  | makeAgg agg fields =>
    obtain ⟨layout, hlayout, hfields⟩ := h
    exact ⟨layout, hlayout, (List.map_map ..).trans ((List.map_congr_left hty).trans hfields)⟩
  | ret value =>
    cases value with
    | none => exact hret.trans h
    | some value =>
      change F'.ty (r value) = F'.ret
      rw [hret, hty value (by simp [Inst.operands])]
      exact h
  | binary | icmp | fcmp | unary | load | fieldPtr | store | condBr | extractField =>
    simp only [Inst.operands, List.forall_mem_cons, List.not_mem_nil, false_implies, implies_true,
      and_true] at hty
    simpa only [TypeRule, Inst.mapOperands, hty] using h
  | _ => exact h

lemma mapOperands_id (inst : Inst) : inst.mapOperands id = inst := by
  cases inst <;> simp [Inst.mapOperands]

/-- The rules depend on the operands alone. -/
lemma Proper.congr (h : Proper F layouts inst) (hret : F'.ret = F.ret)
    (hty : ∀ w ∈ inst.operands, F'.ty w = F.ty w)
    (hslot : ∀ w ∈ inst.operands, ∀ held pinned, F'.inst? w = some (.alloca held pinned) →
      F.inst? w = some (.alloca held pinned)) : Proper F' layouts inst := by
  refine ⟨fun w hw => hty w hw ▸ h.operands w hw, ?_, ?_⟩
  · have htypes := h.types.mapOperands hret (r := id) hty
    rwa [mapOperands_id] at htypes
  · have hslots := h.slots
    cases inst with
    | load held address =>
      intro ty pinned haddress
      exact hslots ty pinned (hslot address (by simp [Inst.operands]) ty pinned haddress)
    | store address stored =>
      intro ty pinned haddress
      rw [hty stored (by simp [Inst.operands])]
      exact hslots ty pinned (hslot address (by simp [Inst.operands]) ty pinned haddress)
    | _ => trivial

/-! ### Growing code -/

variable {A A' : Avail} {b b' : Builder} {ctx : Context}

section Extends

variable (h : Extends A (codeOf b) A' (codeOf b'))
include h

lemma Extends.inst?_kept (hv : b.function.inst? v = some inst) : b'.function.inst? v = some inst := by
  obtain ⟨info, hinfo, -⟩ := Option.map_eq_some_iff.mp hv
  exact (h.inst_eq v (Array.getElem?_eq_some_iff.mp hinfo).1).trans hv

lemma Extends.inst?_of_ty (hv : b.function.ty v ≠ .void) :
    b'.function.inst? v = b.function.inst? v := by
  cases hinst : b.function.inst? v with
  | none =>
    rw [Function.ty, hinst] at hv
    exact absurd rfl hv
  | some inst => exact h.inst?_kept hinst

lemma Extends.hasTy (hv : HasTy b.function v ty) : HasTy b'.function v ty :=
  ⟨(ty_congr (h.inst?_of_ty (hv.1.symm ▸ hv.2))).trans hv.1, hv.2⟩

lemma Extends.proper (hret : b'.function.ret = b.function.ret)
    (hinst : Proper b.function layouts inst) : Proper b'.function layouts inst :=
  hinst.congr hret (fun w hw => ty_congr (h.inst?_of_ty (hinst.operands w hw)))
    fun w hw _ _ hslot => h.inst?_of_ty (hinst.operands w hw) ▸ hslot

end Extends

lemma Grown.ret_eq (h : Grown A b A' b') : b'.function.ret = b.function.ret :=
  congrArg Prod.snd h.header_eq

lemma eq_next (hsize : b'.function.values.size = b.function.values.size + 1)
    (hv : b'.function.inst? v = some inst) (hge : b.function.values.size ≤ v.id) : v = b.next := by
  obtain ⟨info, hinfo, -⟩ := Option.map_eq_some_iff.mp hv
  have hlt := (Array.getElem?_eq_some_iff.mp hinfo).1
  rw [hsize] at hlt
  exact Value.ext (Nat.le_antisymm (Nat.lt_succ_iff.mp hlt) hge)

/-- Where control gets to, the code of a body keeps the type rules. -/
structure Typed (ctx : Context) (b : Builder) : Prop where
  ret_eq : b.function.ret = ctx.env.ty ctx.body.ret
  slots : ∀ v held pinned, b.function.inst? v = some (.alloca held pinned) → held ≠ .void
  proper : ∀ t, b.isLive t = true → ∀ v ∈ b.code t, ∀ inst, b.function.inst? v = some inst →
    Proper b.function ctx.env.layouts inst

namespace Typed

/-- Code is added. What is new keeps the rules, and a block that is marked only now has no old
code. -/
lemma grow (h : Typed ctx b) (hb : Coherent A b) (hx : Extends A (codeOf b) A' (codeOf b'))
    (hret : b'.function.ret = b.function.ret)
    (hslots : ∀ v held pinned, b'.function.inst? v = some (.alloca held pinned) →
      b.function.values.size ≤ v.id → held ≠ .void)
    (hproper : ∀ t, b'.isLive t = true → ∀ v ∈ b'.code t, ∀ inst, b'.function.inst? v = some inst →
      b.isLive t = true ∧ v ∈ b.code t ∨ Proper b'.function ctx.env.layouts inst) :
    Typed ctx b' where
  ret_eq := hret.trans h.ret_eq
  slots v held pinned hv := by
    rcases Nat.lt_or_ge v.id b.function.values.size with hlt | hge
    · rw [show b'.function.inst? v = _ from hx.inst_eq v hlt] at hv
      exact h.slots v held pinned hv
    · exact hslots v held pinned hv hge
  proper t ht v hv inst hinst := by
    rcases hproper t ht v hv inst hinst with ⟨hlive, hold⟩ | hnew
    · rw [show b'.function.inst? v = _ from
        hx.inst_eq v (hb.formed.lt_of_mem_code hold)] at hinst
      exact hx.proper hret (h.proper t hlive v hold inst hinst)
    · exact hnew

lemma append (h : Typed ctx b) (hb : Coherent A b) (happ : Appended b inst b')
    (hg : Grown A b A b') (hplain : isHeadInst inst = false)
    (htargets : ∀ t ∈ inst.successors, Target A b t)
    (hproper : b.isReachable = true → Proper b.function ctx.env.layouts inst) : Typed ctx b' := by
  have hnext : b'.function.inst? b.next = some inst := by
    rw [Function.inst?, happ.value_eq, if_pos rfl]
    rfl
  refine h.grow hb hg.extended hg.ret_eq (fun v held pinned hv hge => ?_)
    fun t ht v hv inst' hinst' => ?_
  · rw [eq_next happ.values_size hv hge, hnext] at hv
    cases Option.some.inj hv
    cases hplain
  · rw [happ.live_eq, Bool.or_eq_true, Bool.and_eq_true, decide_eq_true_eq] at ht
    rw [happ.code_eq] at hv
    split at hv
    · next heq =>
      subst heq
      have hreach : b.isReachable = true := ht.elim id And.right
      rcases List.mem_append.mp hv with hv | hv
      · exact .inl ⟨hreach, hv⟩
      · obtain rfl := List.mem_singleton.mp hv
        rw [hnext] at hinst'
        obtain rfl := Option.some.inj hinst'
        exact .inr (hg.extended.proper hg.ret_eq (hproper hreach))
    · refine .inl ⟨ht.elim id fun ht => (htargets t ht.1).live (List.ne_nil_of_mem hv) ht.2, hv⟩

/-- Nothing is added but values at the head of the entry. -/
lemma head (h : Typed ctx b) (hb : Coherent A b) (hx : Extends A (codeOf b) A' (codeOf b'))
    (hret : b'.function.ret = b.function.ret) (hlive : ∀ t, b'.isLive t = b.isLive t)
    (hcode : ∀ t, b'.code t = b.code t)
    (hslots : ∀ v held pinned, b'.function.inst? v = some (.alloca held pinned) →
      b.function.values.size ≤ v.id → held ≠ .void) : Typed ctx b' :=
  h.grow hb hx hret hslots fun t ht _ hv _ _ => .inl ⟨hlive t ▸ ht, hcode t ▸ hv⟩

lemma join (h : Typed ctx b) (hb : Coherent A b) {args : List Value}
    (hjoined : Joined b b.current ty args b') (hx : Extends A (codeOf b) A' (codeOf b'))
    (hargs : b.isReachable = true → ∀ w ∈ args, HasTy b.function w ty) : Typed ctx b' := by
  have hnext : b'.function.inst? b.next = some (.phi ty args) := by
    rw [Function.inst?, hjoined.value_eq, if_pos rfl]
    rfl
  refine h.grow hb hx (congrArg Prod.snd hjoined.header_eq) (fun v held pinned hv hge => ?_)
    fun t ht v hv inst' hinst' => ?_
  · rw [eq_next hjoined.values_size hv hge, hnext] at hv
    cases hv
  · rw [hjoined.live_eq] at ht
    rw [hjoined.code_eq] at hv
    split at hv
    · next heq =>
      subst heq
      obtain rfl := List.mem_singleton.mp hv
      rw [hnext] at hinst'
      obtain rfl := Option.some.inj hinst'
      have hty (w : Value) (hw : w ∈ args) := hx.hasTy (hargs ht w hw)
      exact .inr ⟨fun w hw => (hty w hw).1.symm ▸ (hty w hw).2, fun w hw => (hty w hw).1, trivial⟩
    · exact .inl ⟨ht, hv⟩

end Typed

end SsaLowering.Proofs
