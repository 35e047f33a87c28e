import SsaLowering.Proofs.LoweredBody
import SsaLowering.Proofs.PromotedForm

/-!
# Lowered bodies are in sound SSA form

What lowering makes of a body is well formed, and pruning and promotion keep it so. The verifier can
reject the result for its types only.
-/

namespace SsaLowering.Proofs

open Ir Ssa Lowering List
open SsaLowering.Core (Body Expr ExprKind Stmt StmtKind)
open Source (TypeTable)

variable {f p g : Function} {entry : Block} {live : Block → Bool}

/-! ### Pruning -/

lemma operands_dropArgs_subset (marks : List Bool) (inst : Inst) :
    (dropArgs marks inst).operands ⊆ inst.operands := by
  cases inst with
  | phi ty args =>
    intro w hw
    obtain ⟨pair, hpair, rfl⟩ := mem_map.mp hw
    exact (of_mem_zip (mem_filter.mp hpair).1).1
  | _ => exact fun _ hw => hw

namespace Trimmed

lemma plain (h : Trimmed f p entry live) (hf : WellFormed f entry) (hplain : Plain f entry) :
    Plain p entry where
  entry_phi v hv := by
    rw [h.insts_eq entry .at_entry] at hv
    rw [h.instIs_of_mem hf .at_entry hv fun marks inst => by cases inst <;> rfl]
    exact hplain.entry_phi v hv
  stores_unused b hb v hv inst hinst w hw := by
    rw [h.reached_iff hf] at hb
    rw [h.insts_eq b hb] at hv
    rw [h.inst?_of_mem hf hb hv] at hinst
    obtain ⟨old, hold, rfl⟩ := Option.map_eq_some_iff.mp hinst
    have hunused := hplain.stores_unused b hb v hv old hold w (operands_dropArgs_subset _ _ hw)
    by_cases hphi : ∃ c, Reached f entry c ∧ w ∈ f.phis c
    · obtain ⟨c, hc, hw⟩ := hphi
      rwa [h.instIs_of_mem hf hc (f.phis_subset hw) fun marks inst => by cases inst <;> rfl]
    · rw [not_exists] at hphi
      rwa [Function.instIs, h.inst_eq w fun c hc hw => hphi c ⟨hc, hw⟩]

lemma homed (h : Trimmed f p entry live) (hf : WellFormed f entry) (hhomed : Homed f) :
    Homed p := by
  intro b hb v hv
  have hreach := (h.reached_iff hf b).mp (h.layout_reached hf hb)
  rw [h.insts_eq b hreach] at hv
  have hhome := hhomed b (hf.listed b hreach) v hv
  have hblock := h.recorded_eq v fun c hc hnot hvc => ?_
  · obtain ⟨info, hinfo, hinfo'⟩ := Option.bind_eq_some_iff.mp hhome
    rw [hinfo, Option.map_some, hinfo'] at hblock
    obtain ⟨info', hnew, hnew'⟩ := Option.map_eq_some_iff.mp hblock
    rw [hnew, Option.bind_some, hnew']
  · -- a value that records one block stands in no other
    have := Option.some.inj ((hhomed c hc v hvc).symm.trans hhome)
    exact hnot (this ▸ hreach)

end Trimmed

/-! ### SSA construction -/

/-- SSA construction succeeds on a well-formed function: it prunes the function, and promotes its
slots if it has any. -/
lemma construct_cases (hf : WellFormed f entry) :
    ∃ stats g count p live, construct f = .ok (stats, g) ∧ prune f = .ok (count, p) ∧
      Trimmed f p entry live ∧ stats.promotedSlots = (promotable p).length ∧
      (promotable p = [] ∧ g = p ∨ ∃ doms homes placed walk held,
        Stage p entry doms (promotable p) homes placed ∧
        Renamed p entry doms (promotable p) homes placed walk held ∧
        g = applyRenaming (promotable p) walk) := by
  obtain ⟨count, p, live, hprune, htrim⟩ := prune_trimmed hf
  have hp := htrim.pruned hf
  obtain ⟨doms, hcompute, hd⟩ :=
    compute_dominatorsOf hp.entry_eq hp.blocks_exist hp.predsAgree
  unfold construct
  rw [hf.entry_eq, hprune]
  dsimp only [bind, Except.bind]
  rw [hcompute]
  dsimp only
  split
  · next hnone =>
    have hnone := isEmpty_iff.mp hnone
    exact ⟨_, _, count, p, live, rfl, rfl, htrim, by rw [hnone]; rfl, .inl ⟨hnone, rfl⟩⟩
  · obtain ⟨homes, placed, walk, held, hstage, hr, heq⟩ := hp.renamed hd
    exact ⟨_, _, count, p, live, rfl, rfl, htrim, rfl,
      .inr ⟨doms, homes, placed, walk, held, hstage, hr, heq⟩⟩

/-- In a list without repetitions, what stands before a member of the leading part is in that
part. -/
lemma before_subset_of_lead {lead insts before after : List Value} {v : Value}
    (hle : lead <+: insts) (hnodup : insts.Nodup) (hv : v ∈ lead)
    (hsplit : insts = before ++ v :: after) : before ⊆ lead := by
  obtain ⟨rest, rfl⟩ := hle
  obtain ⟨front, back, rfl⟩ := append_of_mem hv
  rw [append_assoc, cons_append] at hsplit hnodup
  obtain ⟨-, hback, hapart⟩ := nodup_append.mp hnodup
  have hfront : v ∉ front := fun h => hapart v h v mem_cons_self rfl
  rw [← ((append_cons_inj_of_notMem hfront (nodup_cons.mp hback).1).mp hsplit).1]
  exact subset_append_left _ _

lemma Pruned.placed_of_definedBy (hp : Pruned p entry) {b : Block} (hb : Reached p entry b)
    {w : Value} (hw : DefinedBy p entry w b) : w ∈ p.placedValues := by
  obtain ⟨trail, hpath⟩ := hb
  obtain ⟨d, hd, hmem⟩ := hw trail hpath
  exact mem_flatMap.mpr ⟨d, hp.listed d (hpath.reachable_of_mem hd), hmem⟩

lemma Pruned.placed_of_definedBefore (hp : Pruned p entry) {b : Block} (hb : Reached p entry b)
    {w : Value} {place : Nat} (hw : DefinedBefore p entry w b place) : w ∈ p.placedValues := by
  refine hp.placed_of_definedBy hb fun trail hpath => ?_
  obtain ⟨earlier, rfl⟩ := hpath.head_eq
  rcases hw earlier hpath with hmem | ⟨d, hd, hmem⟩
  · exact ⟨b, mem_cons_self, mem_of_mem_take hmem⟩
  · exact ⟨d, mem_cons_of_mem _ hd, hmem⟩

lemma Pruned.shaped (hp : Pruned p entry) {b : Block} (hb : Reached p entry b) :
    Shaped p entry b where
  terminator_last := by
    obtain ⟨last, hlast, hterm⟩ := p.terminator?_isSome_iff.mp (hp.terminated b hb)
    obtain ⟨before, heq⟩ := getLast?_eq_some_iff.mp hlast
    refine ⟨before, last, heq, hterm, fun v hv => hp.terminator_last b hb v ?_⟩
    rwa [heq, dropLast_concat]
  phis_first before v after hsplit hphi u hu := by
    have hv : v ∈ p.phis b :=
      hp.mem_phis hb (hsplit ▸ mem_append_right _ mem_cons_self) hphi
    exact p.instIs_of_mem_phis (before_subset_of_lead (List.takeWhile_prefix _)
      (hp.insts_nodup b hb) hv hsplit hu)
  phi_arity v hv ty args hinst := hp.phi_length hb hv hinst
  params_first before v after hsplit hparam := by
    have hv : v ∈ p.insts b := hsplit ▸ mem_append_right _ mem_cons_self
    have hmem := hp.params_only b hb v hv hparam
    obtain rfl := hp.home_unique b entry hb .at_entry v hv (hp.params_lead.subset hmem)
    refine ⟨rfl, fun u hu => .inr (hp.params_param u ?_)⟩
    exact before_subset_of_lead hp.params_lead (hp.insts_nodup b hb) hmem hsplit hu

lemma Pruned.sound (hp : Pruned p entry) (hhomed : Homed p) : Sound p entry where
  entry_eq := hp.entry_eq
  entry_preds := hp.entry_preds
  placed_once := hp.placedValues_nodup
  homed := hhomed
  reached := hp.layout_reached
  shaped b hb := hp.shaped (hp.layout_reached b hb)
  preds_right b hb q := by
    rw [(hp.preds_perm b (hp.layout_reached b hb)).count_eq, Function.edgeSources,
      count_flatMap_replicate hp.layout_nodup]
  operands b hb place v inst hv hinst := by
    have hr := hp.layout_reached b hb
    have hmem := List.mem_of_getElem? hv
    have harg {ty : Ty} {args : List Value} (heq : inst = .phi ty args) :
        ∀ edge ∈ (p.preds b).zip args, Reached p entry edge.1 ∧ DefinedBy p entry edge.2 edge.1 := by
      subst heq
      intro edge hedge
      have hq := hp.preds_reached b hr edge.1 (of_mem_zip hedge).1
      exact ⟨hq, hp.phi_defined b hr v hmem ty args hinst edge hedge hq⟩
    have hbefore (hphi : inst.isPhi = false) (w : Value) (hw : w ∈ inst.operands) :=
      hp.defined b hr place v inst hv hinst hphi w hw
    refine ⟨fun w hw => ?_, hbefore, fun ty args heq edge hedge => (harg heq edge hedge).2⟩
    cases hphi : inst.isPhi with
    | false => exact hp.placed_of_definedBefore hr (hbefore hphi w hw)
    | true =>
      obtain ⟨ty, args, rfl⟩ : ∃ ty args, inst = .phi ty args := by
        cases inst <;> first | exact ⟨_, _, rfl⟩ | cases hphi
      obtain ⟨j, hj⟩ := mem_iff_getElem?.mp (show w ∈ args from hw)
      have hlt : j < (p.preds b).length :=
        hp.phi_length hr hmem hinst ▸ (List.getElem?_eq_some_iff.mp hj).1
      have hedge : ((p.preds b).get ⟨j, hlt⟩, w) ∈ (p.preds b).zip args :=
        List.mem_of_getElem? (List.getElem?_zip_eq_some.mpr ⟨List.getElem?_eq_getElem hlt, hj⟩)
      obtain ⟨hq, hdefined⟩ := harg rfl _ hedge
      exact hp.placed_of_definedBy hq hdefined

lemma Finished.construct_sound {A : Avail} {b : Builder} (h : Finished A b) :
    ∃ stats g, construct b.function = .ok (stats, g) ∧ Pruned g Builder.firstBlock ∧ Homed g := by
  have hf := h.wellFormed
  obtain ⟨stats, g, count, p, live, hconstruct, -, htrim, -, hg⟩ := construct_cases hf
  have hp := htrim.pruned hf
  have hplain := htrim.plain hf h.plain
  have hhomed := htrim.homed hf h.homed
  refine ⟨stats, g, hconstruct, ?_⟩
  rcases hg with ⟨-, rfl⟩ | ⟨doms, homes, placed, walk, held, hstage, hr, rfl⟩
  · exact ⟨hp, hhomed⟩
  · have hg := hr.promoted hstage
    exact ⟨hg.pruned hstage hr hplain, hg.homed hstage hr hhomed⟩

/-- Lowering a body never stops the engine, and what it gives is brought into sound SSA form by SSA
construction: only what can be reached is left, and the verifier can only find fault with types. -/
theorem lowered_bodies_are_sound (env : Environment) (body : Body) :
    (∀ fault, (lowerBody env body).function ≠ .error (.fault fault)) ∧
    ∀ f, (lowerBody env body).function = .ok f → ∃ stats g entry,
      construct f = .ok (stats, g) ∧ Sound g entry ∧ (∀ b, b ∈ g.layout ↔ Reached g entry b) ∧
      ∀ types, ∃ verdict, g.verify types = .ok verdict ∧
        ∀ problem, verdict = .error problem → isTypeFault problem = true := by
  have hlowered := lowerBody_finished env body
  refine ⟨fun fault hfault => ?_, fun f hf => ?_⟩
  · rw [hfault] at hlowered
    exact hlowered
  · rw [hf] at hlowered
    obtain ⟨A, b, hfinished, -, rfl⟩ := hlowered
    obtain ⟨stats, g, hconstruct, hp, hhomed⟩ := hfinished.construct_sound
    have hsound := hp.sound hhomed
    refine ⟨stats, g, _, hconstruct, hsound, hp.mem_layout_iff, fun types => ?_⟩
    exact hsound.verify_cases hp.listed (fun b hb => hp.blocks_exist b (hp.layout_reached b hb)) types

/-- A body that counts its parameter up to a bound, with code that control does not get to. -/
def countUp : Body :=
  let int (kind : ExprKind) : Expr := ⟨0, .zero, TypeTable.int, kind⟩
  let stmt (kind : StmtKind) : Stmt := ⟨0, .zero, kind⟩
  let test : Expr := ⟨0, .zero, TypeTable.bool, .binary .lt (int (.localVar ⟨0⟩))
    (int (.literal (.int 10)))⟩
  let again := stmt (.assign (.localVar ⟨0⟩) (int (.binary .add (int (.localVar ⟨0⟩))
    (int (.literal (.int 1))))))
  let choose : Expr := ⟨0, .zero, TypeTable.unit, .ifElse test ⟨0, .zero, [again], none⟩
    ⟨0, .zero, [stmt .breakLoop, stmt .continueLoop], none⟩⟩
  { name := "count"
    params := [⟨0⟩]
    ret := TypeTable.int
    locals := #[⟨"n", TypeTable.int, true, false⟩]
    block := ⟨0, .zero, [stmt (.loop none ⟨0, .zero, [stmt (.expr choose)], none⟩ none)],
      some (int (.localVar ⟨0⟩))⟩
    span := .zero
    node := 0 }

lemma countUp_lowers :
    ∃ f, (lowerBody (.ofProgram .fnv ⟨"", .initial, []⟩) countUp).function = .ok f := by
  have h : (lowerBody (.ofProgram .fnv ⟨"", .initial, []⟩) countUp).function.toBool = true := by
    decide +kernel
  cases hf : (lowerBody (.ofProgram .fnv ⟨"", .initial, []⟩) countUp).function with
  | ok f => exact ⟨f, rfl⟩
  | error e =>
    rw [hf] at h
    cases h

theorem countUp_is_sound :
    ∃ f, (lowerBody (.ofProgram .fnv ⟨"", .initial, []⟩) countUp).function = .ok f ∧
      ∃ stats g entry, construct f = .ok (stats, g) ∧ Sound g entry ∧
        (∀ b, b ∈ g.layout ↔ Reached g entry b) ∧
        ∀ types, ∃ verdict, g.verify types = .ok verdict ∧
          ∀ problem, verdict = .error problem → isTypeFault problem = true := by
  obtain ⟨f, hf⟩ := countUp_lowers
  exact ⟨f, hf, (lowered_bodies_are_sound (.ofProgram .fnv ⟨"", .initial, []⟩) countUp).2 f hf⟩

end SsaLowering.Proofs
