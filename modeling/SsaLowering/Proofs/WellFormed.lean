import SsaLowering.Ir.Verification
import SsaLowering.Proofs.DominatorTree
import SsaLowering.Proofs.Machine

/-!
# Well-formed functions

A function is well formed if the part of it that can be reached from the entry is: every block ends
in its only terminator, recorded predecessors are the sources of the edges, phis and parameters lead
their blocks, slots are made in the entry, and on every path each value is computed before it is
used. What is said of paths is read back as dominance.
-/

namespace SsaLowering.Proofs

open Ir List

section

variable (f : Function) (entry : Block)

/-- Control gets to a block. -/
abbrev Reached (b : Block) : Prop :=
  Reachable (Edge f) entry b

/-- On every path to the instruction at some place of a block, a value is computed before. -/
def DefinedBefore (w : Value) (b : Block) (place : Nat) : Prop :=
  ∀ earlier, Path (Edge f) entry b (b :: earlier) →
    w ∈ (f.insts b).take place ∨ ∃ d ∈ earlier, w ∈ f.insts d

/-- On every path through a block, a value is computed by the end of the block. -/
def DefinedBy (w : Value) (b : Block) : Prop :=
  ∀ trail, Path (Edge f) entry b trail → ∃ d ∈ trail, w ∈ f.insts d

end

/-- The part of a function that can be reached is in order, wherever its slots are made. -/
structure Orderly (f : Function) (entry : Block) : Prop where
  entry_eq : f.entry? = some entry
  layout_nodup : f.layout.Nodup
  listed : ∀ b, Reached f entry b → b ∈ f.layout
  blocks_exist : BlocksExist f entry
  values_exist : ∀ b, Reached f entry b → ∀ v ∈ f.insts b,
    (f.inst? v).isSome
  insts_nodup : ∀ b, Reached f entry b → (f.insts b).Nodup
  home_unique : ∀ b c, Reached f entry b → Reached f entry c →
    ∀ v ∈ f.insts b, v ∈ f.insts c → b = c
  terminated : ∀ b, Reached f entry b → (f.terminator? b).isSome
  terminator_last : ∀ b, Reached f entry b → ∀ v ∈ (f.insts b).dropLast,
    f.instIs Inst.isTerminator v = false
  preds_perm : ∀ b, Reached f entry b → (f.preds b).Perm (f.edgeSources b)
  entry_preds : f.preds entry = []
  phis_first : ∀ b, Reached f entry b → ∀ v ∈ f.afterPhis b,
    f.instIs Inst.isPhi v = false
  phi_arity : ∀ b, Reached f entry b → ∀ v ∈ f.phis b, ∀ ty args,
    f.inst? v = some (.phi ty args) → args.length = (f.preds b).length
  params_lead : f.params <+: f.insts entry
  params_param : ∀ v ∈ f.params, f.instIs Inst.isParam v = true
  params_only : ∀ b, Reached f entry b → ∀ v ∈ f.insts b,
    f.instIs Inst.isParam v = true → v ∈ f.params
  defined : ∀ b, Reached f entry b → ∀ (place : Nat) v inst,
    (f.insts b)[place]? = some v → f.inst? v = some inst → inst.isPhi = false →
      ∀ w ∈ inst.operands, DefinedBefore f entry w b place
  phi_defined : ∀ b, Reached f entry b → ∀ v ∈ f.insts b, ∀ ty args,
    f.inst? v = some (.phi ty args) → ∀ edge ∈ (f.preds b).zip args,
      Reached f entry edge.1 → DefinedBy f entry edge.2 edge.1

/-- The part of a function that can be reached is well formed. -/
structure WellFormed (f : Function) (entry : Block) : Prop extends Orderly f entry where
  alloca_entry : ∀ b, Reached f entry b → ∀ v ∈ f.insts b, ∀ ty pinned,
    f.inst? v = some (.alloca ty pinned) → b = entry

lemma count_flatMap_replicate {blocks : List Block} (hnodup : blocks.Nodup) (times : Block → Nat)
    (p : Block) : (blocks.flatMap fun source => List.replicate (times source) source).count p =
      if p ∈ blocks then times p else 0 := by
  induction blocks with
  | nil => simp
  | cons x blocks ih =>
    obtain ⟨hx, hrest⟩ := nodup_cons.mp hnodup
    rw [flatMap_cons, count_append, ih hrest, count_replicate]
    by_cases hp : x = p
    · subst hp
      simp [hx]
    · simp [hp, Ne.symm hp]

namespace Orderly

variable {f : Function} {entry : Block} {w : Value} {p b : Block}

section

variable (hf : Orderly f entry) (hb : Reached f entry b)
include hf hb

/-- Instructions that read their operands where they stand: the operand is further up in the
block, or in a block above. -/
lemma available {place : Nat} (h : DefinedBefore f entry w b place) :
    w ∈ (f.insts b).take place ∨
      ∃ d, StrictlyDominates (Edge f) entry d b ∧ w ∈ f.insts d := by
  by_cases hw : w ∈ (f.insts b).take place
  · exact .inl hw
  obtain ⟨trail, hpath⟩ := hb
  obtain ⟨short, hshort, -, hnodup⟩ := hpath.exists_nodup
  obtain ⟨earlier, rfl⟩ := hshort.head_eq
  obtain ⟨d, hd, hwd⟩ := (h earlier hshort).resolve_left hw
  have hreach : Reached f entry d := hshort.reachable_of_mem (mem_cons_of_mem _ hd)
  refine .inr ⟨d, ⟨fun trail' hpath' => ?_, fun heq => ?_⟩, hwd⟩
  · obtain ⟨earlier', rfl⟩ := hpath'.head_eq
    obtain ⟨d', hd', hwd'⟩ := (h earlier' hpath').resolve_left hw
    have hreach' := hpath'.reachable_of_mem (mem_cons_of_mem _ hd')
    rw [hf.home_unique d d' hreach hreach' w hwd hwd']
    exact mem_cons_of_mem _ hd'
  · exact (nodup_cons.mp hnodup).1 (heq ▸ hd)

lemma operand_available {before after : List Value} {v : Value} {inst : Inst}
    (hsplit : f.insts b = before ++ v :: after) (hinst : f.inst? v = some inst)
    (hphi : inst.isPhi = false) (hw : w ∈ inst.operands) :
    w ∈ before ∨ ∃ d, StrictlyDominates (Edge f) entry d b ∧ w ∈ f.insts d := by
  have hget : (f.insts b)[before.length]? = some v := by simp [hsplit]
  have h := hf.available hb (hf.defined b hb before.length v inst hget hinst hphi w hw)
  rwa [hsplit, take_left] at h

lemma available_by (h : DefinedBy f entry w b) :
    ∃ d, Dominates (Edge f) entry d b ∧ w ∈ f.insts d := by
  obtain ⟨trail, hpath⟩ := hb
  obtain ⟨d, hd, hwd⟩ := h trail hpath
  refine ⟨d, fun trail' hpath' => ?_, hwd⟩
  obtain ⟨d', hd', hwd'⟩ := h trail' hpath'
  rw [hf.home_unique d d' (hpath.reachable_of_mem hd) (hpath'.reachable_of_mem hd') w hwd hwd']
  exact hd'

/-- Behind its phis, a block has other instructions and ends in its terminator. -/
lemma afterPhis_split : ∃ body last inst, f.afterPhis b = body ++ [last] ∧
      (∀ v ∈ body, ∃ inst, f.inst? v = some inst ∧ inst.isPhi = false ∧
        inst.isTerminator = false) ∧
      f.inst? last = some inst ∧ inst.isTerminator = true := by
  have hsplit := f.phis_append_afterPhis b
  obtain ⟨last, hlast⟩ := Option.isSome_iff_exists.mp (hf.terminated b hb)
  rw [Function.terminator?, Option.filter_eq_some_iff] at hlast
  obtain ⟨hget, hist⟩ := hlast
  obtain ⟨inst, hinst⟩ : ∃ inst, f.inst? last = some inst :=
    Option.isSome_iff_exists.mp (hf.values_exist b hb last (mem_of_getLast? hget))
  have htrue : inst.isTerminator = true := by simpa [Function.instIs, hinst] using hist
  have hne : f.afterPhis b ≠ [] := by
    -- a phi ends no block
    intro hnil
    rw [hnil, append_nil] at hsplit
    have hphi := f.instIs_of_mem_phis (hsplit ▸ mem_of_getLast? hget)
    rw [Function.instIs, hinst] at hphi
    cases inst <;> simp_all [Inst.isPhi, Inst.isTerminator]
  refine ⟨(f.afterPhis b).dropLast, last, inst, ?_, fun v hv => ?_, hinst, htrue⟩
  · rw [← hsplit, getLast?_append_of_ne_nil _ hne, getLast?_eq_some_getLast hne] at hget
    rw [← Option.some.inj hget, dropLast_append_getLast]
  · have hafter := mem_of_mem_dropLast hv
    obtain ⟨inst', hinst'⟩ := Option.isSome_iff_exists.mp
      (hf.values_exist b hb v (hsplit ▸ mem_append_right _ hafter))
    have hphi := hf.phis_first b hb v hafter
    have hnot := hf.terminator_last b hb v (by
      rw [← hsplit, dropLast_append_of_ne_nil hne]
      exact mem_append_right _ hv)
    exact ⟨inst', hinst', by simpa [Function.instIs, hinst'] using hphi,
      by simpa [Function.instIs, hinst'] using hnot⟩

end

section

variable (hf : Orderly f entry)
include hf

/-- For blocks that can be reached, recorded edges are edges, as many times. -/
lemma count_preds (hp : Reached f entry p) (hb : Reached f entry b) :
    (f.preds b).count p = (f.successors p).count b := by
  rw [(hf.preds_perm b hb).count_eq, Function.edgeSources,
    count_flatMap_replicate hf.layout_nodup, if_pos (hf.listed p hp)]

lemma predsAgree : PredsAgree f entry := by
  intro p b hp hb
  rw [Edge, ← count_pos_iff, hf.count_preds hp hb, count_pos_iff]

lemma preds_listed (hb : Reached f entry b) (hp : p ∈ f.preds b) :
    p ∈ f.layout := by
  have hmem := (hf.preds_perm b hb).mem_iff.mp hp
  rw [Function.edgeSources, mem_flatMap] at hmem
  obtain ⟨source, hsource, hrep⟩ := hmem
  rwa [eq_of_mem_replicate hrep]

lemma no_edge_to_entry (hp : Reached f entry p) : ¬ Edge f p entry := by
  intro h
  have := (hf.predsAgree p entry hp .at_entry).mpr h
  rw [hf.entry_preds] at this
  cases this

/-- A terminator ends its block, so the edges of the block are its edges. -/
lemma successors_of_terminator (hb : Reached f entry b) {done rest : List Value}
    {v : Value} {inst : Inst} (hsplit : f.insts b = done ++ v :: rest)
    (hinst : f.inst? v = some inst) (hterm : inst.isTerminator = true) :
    rest = [] ∧ f.successors b = inst.successors := by
  have hnil : rest = [] := by
    by_contra hne
    have hmem : v ∈ (f.insts b).dropLast := by
      rw [hsplit, dropLast_append_of_ne_nil (cons_ne_nil v rest),
        dropLast_cons_of_ne_nil hne]
      exact mem_append_right _ mem_cons_self
    have hnot := hf.terminator_last b hb v hmem
    rw [Function.instIs, hinst, Option.any_some, hterm] at hnot
    cases hnot
  refine ⟨hnil, ?_⟩
  rw [Function.successors_eq, hsplit, hnil, getLast?_append_of_ne_nil _ (by simp),
    getLast?_singleton, Option.bind_some, hinst]
  rfl

end

/-- The edge along which a run leaves a block is one of the block's. -/
lemma runInsts_goto {I : Interpretation} {M : Machine I} (hf : Orderly M.function entry)
    (hb : Reached M.function entry b) {done todo : List Value}
    (hsplit : M.function.insts b = done ++ todo) {state state' : RunState I} {target : Block}
    {turn : Nat} (h : M.runInsts todo state = .goto target turn state') :
    turn < (M.function.successors b).count target := by
  induction todo generalizing done state with
  | nil => cases h
  | cons v rest ih =>
    have hmem : v ∈ M.function.insts b := hsplit ▸ mem_append_right _ mem_cons_self
    obtain ⟨inst, hinst⟩ := Option.isSome_iff_exists.mp (hf.values_exist b hb v hmem)
    cases hterm : inst.isTerminator with
    | true =>
      rw [M.runInsts_cons_leave rest state hinst hterm] at h
      rw [(hf.successors_of_terminator hb hsplit hinst hterm).2]
      exact (Machine.leave_goto h).1
    | false =>
      rw [M.runInsts_cons_exec rest state hinst hterm] at h
      cases hexec : M.exec v inst state with
      | ok next =>
        rw [hexec] at h
        exact ih (hsplit.trans (append_cons done v rest)) h
      | error next =>
        rw [hexec] at h
        cases h

end Orderly

end SsaLowering.Proofs
