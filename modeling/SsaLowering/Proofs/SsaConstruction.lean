import SsaLowering.Proofs.Simulation

/-!
# SSA construction preserves meaning

A function whose reachable part is well formed can be brought into SSA form, and the result runs as
the function does in which the private slots are cells: for the same arguments and memory, over any
interpretation, it makes the same calls and the same accesses in the same order, and ends in the
same way or not at all.
-/

namespace SsaLowering.Proofs

open Ir Ssa List

/-! ### The head of the entry -/

def isGiven : Inst → Bool
  | .param .. | .undef _ => true
  | _ => false

section Given

variable {I : Interpretation} (M : Machine I)

/-- The word that a parameter or undefined value has whenever it is computed. -/
def givenWord (v : Value) : I.Word :=
  match M.function.inst? v with
  | some (.param ty position) => M.args.getD position (I.undef ty)
  | some (.undef ty) => I.undef ty
  | _ => I.undef .void

def withGiven (values : List Value) (st : RunState I) : RunState I :=
  { st with regs := fun x => if x ∈ values then givenWord M x else st.regs x }

lemma exec_given {v : Value} {inst : Inst} (hinst : M.function.inst? v = some inst)
    (hgiven : isGiven inst = true) (st : RunState I) :
    M.exec v inst st = .ok (st.setReg v (givenWord M v)) := by
  cases inst with
  | param ty position => simp [Machine.exec, givenWord, hinst]
  | undef ty =>
    simp [Machine.exec, givenWord, hinst, Machine.finish, Interpretation.operate,
      Interpretation.eventOf, RunState.setReg]
  | _ => cases hgiven

lemma runInsts_given {values : List Value}
    (hvalues : ∀ v ∈ values, M.function.instIs isGiven v = true) (rest : List Value)
    (st : RunState I) :
    M.runInsts (values ++ rest) st = M.runInsts rest (withGiven M values st) := by
  induction values generalizing st with
  | nil => simp [withGiven]
  | cons v values ih =>
    obtain ⟨inst, hinst, hgiven⟩ := (Option.any_eq_true _ _).mp (hvalues v mem_cons_self)
    have hterm : inst.isTerminator = false := by cases inst <;> first | rfl | cases hgiven
    rw [cons_append, M.runInsts_cons_exec _ st hinst hterm, exec_given M hinst hgiven]
    dsimp only
    rw [ih fun w hw => hvalues w (mem_cons_of_mem _ hw)]
    have hstate : withGiven M values (st.setReg v (givenWord M v)) =
        withGiven M (v :: values) st := by
      unfold withGiven RunState.setReg
      congr 1
      funext x
      by_cases hx : x = v
      · subst hx
        simp
      · simp [hx]
    rw [hstate]

end Given

/-! ### Whole runs -/

section

variable {p : Function} {entry : Block} {doms : Dominators} {slots : List Slot}
  {homes : List (Slot × Block)} {placed : Placed} {walk : Renaming} {held : Block → Held}
  {g : Function} {I : Interpretation}

section

variable (h : Stage p entry doms slots homes placed)
  (hr : Renamed p entry doms slots homes placed walk held)
  (hg : Promoted p entry slots homes placed walk held g) (args : List I.Word)
include h hr hg args

/-- Runs that are in step end alike, by induction on the jumps left. -/
theorem InStep.runFrom (hmade : MadeAtEntry p entry slots) (fuel : Nat) {b : Block}
    (hb : Reached p entry b) {before todo : List Value} {st st' : RunState I}
    (hsplit : placed.function.insts b = before ++ todo)
    (hold : ∀ v ∈ todo, v ∈ p.insts b)
    (hin : InStep p entry doms slots placed walk held b before st st') :
    (ssaMachine g args).runFrom fuel b (todo.filter (!isDropped slots p ·)) st' =
      (slotMachine slots p args).runFrom fuel b todo st := by
  induction fuel using Nat.strongRecOn generalizing b before todo st st' with
  | ind fuel ih =>
  have hend := hin.runInsts h hr hmade hg hb args todo hsplit hold
  generalize hrun : (slotMachine slots p args).runInsts todo st = last at hend
  generalize hrun' : (ssaMachine g args).runInsts _ st' = last' at hend
  cases hend with
  | halt outcome hmemory htrace =>
    rw [Machine.runFrom_halt _ hrun, Machine.runFrom_halt _ hrun', hmemory, htrace]
  | goto target turn hin' =>
    cases fuel with
    | zero => rw [Machine.runFrom_goto_zero _ hrun, Machine.runFrom_goto_zero _ hrun', hin'.trace_eq]
    | succ fuel =>
      have hsplit' : p.insts b = before.filter (·.id < p.values.size) ++ todo := by
        rw [← h.filter_insts hb, hsplit, filter_append]
        congr 1
        exact filter_eq_self.mpr fun v hv =>
          decide_eq_true (h.pruned.lt_size hb (hold v hv))
      have hturn : turn < (p.successors b).count target :=
        Orderly.runInsts_goto (M := slotMachine slots p args) h.pruned.toOrderly hb hsplit' hrun
      have hedge : Edge p b target := count_pos_iff.mp (by omega)
      have ht := hb.step hedge
      have hne : target ≠ entry := fun heq => h.pruned.no_edge_to_entry hb (heq ▸ hedge)
      rw [Machine.runFrom_goto_succ _ hrun, Machine.runFrom_goto_succ _ hrun']
      change (ssaMachine g args).runFrom fuel target (g.afterPhis target) _ =
        (slotMachine slots p args).runFrom fuel target (p.afterPhis target) _
      rw [hg.afterPhis_eq h ht hne]
      refine ih fuel fuel.lt_succ_self ht (h.arranged target) (fun v hv => ?_)
        (hin'.enter h hmade hr hg hb hedge (by rwa [h.pruned.count_preds hb ht]) args)
      rw [← p.phis_append_afterPhis]
      exact mem_append_right _ hv

omit h hr hg args in
lemma not_isSilent_of_isParam (inst : Inst) (h : inst.isParam = true) : isSilent inst = false := by
  cases inst <;> first | rfl | cases h

/-- Behind the parameters, both runs have come to the same point of the entry. -/
lemma Renamed.start_inStep (memory : I.Memory) :
    InStep p entry doms slots placed walk held entry p.params
      (withGiven (slotMachine slots p args) p.params (.start I memory))
      (withGiven (ssaMachine g args) (p.params ++ (walk.undefs.map Prod.snd).reverse)
        (.start I memory)) := by
  have hparam := h.pruned.params_param
  have hentry : ∀ v ∈ p.params, v ∈ p.insts entry := fun v hv =>
    h.pruned.params_lead.subset hv
  have hundef : ∀ {x : Value}, x ∈ (walk.undefs.map Prod.snd).reverse → p.values.size ≤ x.id := by
    intro x hx
    obtain ⟨e, he, rfl⟩ := mem_map.mp (mem_reverse.mp hx)
    have := (hr.walked.undef_lt he).1
    omega
  refine ⟨rfl, rfl, fun x _ _ hav => ?_, fun x hx => ?_, fun e he => ?_, fun s hs hmade _ => ?_⟩
  · have hx : x ∈ p.params := hav.resolve_right fun ⟨d, hd, _⟩ => hd.ne_entry rfl
    obtain ⟨inst, hinst, hkind⟩ := (Option.any_eq_true _ _).mp (hparam x hx)
    have hload : ¬ IsLoad slots p x := by
      rintro ⟨s, hacc⟩
      obtain ⟨-, ty, hload⟩ := (access?_eq_load_iff h.distinct).mp hacc
      rw [hinst] at hload
      cases hload
      cases hkind
    have hinst' := hg.inst_kept entry .at_entry x (hentry x hx)
      (h.not_isDropped_of_instIs (hparam x hx) not_isSlotInst_of_isParam)
    rw [hr.agrees.other x hload]
    refine (if_pos (mem_append_left _ hx)).trans (Eq.trans ?_ (if_pos hx).symm)
    simp only [givenWord, ssaMachine, slotMachine, hinst, hinst']
    cases inst <;> rfl
  · have hnot : x ∉ p.params := fun hmem => by
      rw [p.instIs_eq_false (hparam x hmem) not_isSilent_of_isParam] at hx
      cases hx
    have hnot' : x ∉ p.params ++ (walk.undefs.map Prod.snd).reverse := fun hmem => by
      have hge := hundef ((mem_append.mp hmem).resolve_left hnot)
      rw [Function.instIs, p.inst?_eq_none x hge] at hx
      cases hx
    exact (if_neg hnot').trans (if_neg hnot).symm
  · have hmem : e.2 ∈ p.params ++ (walk.undefs.map Prod.snd).reverse :=
      mem_append_right _ (mem_reverse.mpr (mem_map.mpr ⟨e, he, rfl⟩))
    refine (if_pos hmem).trans ?_
    simp only [givenWord, ssaMachine, hg.inst_undef e he]
  · have hslot := hparam _ (hmade rfl)
    rw [Function.instIs, ((h.slots_iff s).mp hs).alloca] at hslot
    cases hslot

/-- The promoted function runs as the function does in which the slots are cells. -/
theorem Renamed.run_eq (hmade : MadeAtEntry p entry slots) (memory : I.Memory) (fuel : Nat) :
    (ssaMachine g args).run memory fuel = (slotMachine slots p args).run memory fuel := by
  have hentry : (slotMachine slots p args).function.entry? = some entry := h.pruned.entry_eq
  have hentry' : (ssaMachine g args).function.entry? = some entry := by
    rw [← hentry]
    exact congrArg List.head? hg.layout_eq
  obtain ⟨rest, hsplit⟩ := h.pruned.params_lead
  have hdrop : (p.insts entry).drop p.params.length = rest := by rw [← hsplit, drop_left]
  have hgiven : ∀ v ∈ p.params, (slotMachine slots p args).function.instIs isGiven v = true := by
    intro v hv
    obtain ⟨inst, hinst, hkind⟩ := (Option.any_eq_true _ _).mp (h.pruned.params_param v hv)
    refine (Option.any_eq_true _ _).mpr ⟨inst, hinst, ?_⟩
    cases inst <;> first | rfl | cases hkind
  have hgiven' : ∀ v ∈ p.params ++ (walk.undefs.map Prod.snd).reverse,
      (ssaMachine g args).function.instIs isGiven v = true := by
    intro v hv
    rcases mem_append.mp hv with hv | hv
    · have hparam := h.pruned.params_param v hv
      obtain ⟨inst, hinst, hkind⟩ := (Option.any_eq_true _ _).mp hparam
      have hinst' := hg.inst_kept entry .at_entry v (h.pruned.params_lead.subset hv)
        (h.not_isDropped_of_instIs hparam not_isSlotInst_of_isParam)
      rw [hinst] at hinst'
      refine (Option.any_eq_true _ _).mpr ⟨_, hinst', ?_⟩
      cases inst <;> first | rfl | cases hkind
    · obtain ⟨e, he, rfl⟩ := mem_map.mp (mem_reverse.mp hv)
      exact (Option.any_eq_true _ _).mpr ⟨_, hg.inst_undef e he, rfl⟩
  rw [Machine.run, Machine.run, hentry, hentry']
  change (ssaMachine g args).runFrom fuel entry (g.insts entry) _ =
    (slotMachine slots p args).runFrom fuel entry (p.insts entry) _
  rw [hg.insts_entry, hdrop, Machine.runFrom_congr _ (runInsts_given _ hgiven' _ _), ← hsplit,
    Machine.runFrom_congr _ (runInsts_given _ hgiven _ _)]
  refine (hr.start_inStep h hg args memory).runFrom h hr hg args hmade fuel .at_entry ?_ fun v hv => ?_
  · rw [h.insts_entry, hsplit]
  · rw [← hsplit]
    exact mem_append_right _ hv

end

lemma Pruned.renamed (hp : Pruned p entry) (hd : DominatorsOf p entry doms) :
    ∃ homes placed walk held, Stage p entry doms (promotable p) homes placed ∧
      Renamed p entry doms (promotable p) homes placed walk held ∧
      (promote (promotable p) doms entry p).2 = applyRenaming (promotable p) walk := by
  obtain ⟨homes, hplaced, hhomes⟩ := placePhis_homes hd (promotable p)
  have hreached (home : Slot × Block) (hhome : home ∈ homes) := (hhomes.reached hd hhome).1
  have hinserted := foldl_insertHome homes fun home hhome => hp.blocks_exist _ (hreached home hhome)
  have harranged := foldl_insertHome_insts hp.toOrderly homes hreached
  rw [← hplaced] at hinserted
  simp only [← hplaced] at harranged
  have hstage : Stage p entry doms (promotable p) homes (placePhis (promotable p) p doms) :=
    ⟨hp, hd, hp.mem_promotable_iff, distinct_promotable p, hhomes, hinserted, harranged⟩
  obtain ⟨held, hr⟩ := hstage.renamed
  exact ⟨homes, _, _, held, hstage, hr, rfl⟩

lemma Pruned.promote (hp : Pruned p entry) (hd : DominatorsOf p entry doms) :
    ∃ homes placed walk held, Stage p entry doms (promotable p) homes placed ∧
      Renamed p entry doms (promotable p) homes placed walk held ∧
      Promoted p entry (promotable p) homes placed walk held
        (promote (promotable p) doms entry p).2 := by
  obtain ⟨homes, placed, walk, held, hstage, hr, heq⟩ := hp.renamed hd
  exact ⟨homes, placed, walk, held, hstage, hr, heq ▸ hr.promoted hstage⟩

end

/-! ### Private slots -/

/-- An instruction of a block uses a value; through a phi only along an edge that can be taken. -/
inductive Uses (f : Function) (entry b : Block) (u v : Value) : Prop where
  | operand {inst : Inst} (hinst : f.inst? u = some inst) (hphi : inst.isPhi = false)
    (hv : v ∈ inst.operands)
  | argument {ty : Ty} {args : List Value} {q : Block} (hinst : f.inst? u = some (.phi ty args))
    (hq : Reached f entry q) (hv : (q, v) ∈ (f.preds b).zip args)

/-- An instruction loads from an address or stores another value to it. -/
def Accesses (f : Function) (u v : Value) : Prop :=
  (∃ ty, f.inst? u = some (.load ty v)) ∨ ∃ x, x ≠ v ∧ f.inst? u = some (.store v x)

/-- A slot that is not pinned and used for nothing but accesses to it. -/
structure Private (f : Function) (entry : Block) (v : Value) : Prop where
  made : v ∈ f.insts entry
  unpinned : ∃ ty, f.inst? v = some (.alloca ty false)
  accessed : ∀ b, Reached f entry b → ∀ u ∈ f.insts b, Uses f entry b u v → Accesses f u v

section

variable {f p : Function} {entry : Block} {live : Block → Bool} (h : Trimmed f p entry live)
include h

/-- The arguments of a phi that stay are those along edges that can be taken. -/
lemma Trimmed.mem_keepMarked_iff {b : Block} {args : List Value}
    (hlen : args.length = (f.preds b).length) {v : Value} :
    v ∈ keepMarked args ((f.preds b).map live) ↔
      ∃ q, Reached f entry q ∧ (q, v) ∈ (f.preds b).zip args := by
  have hsnd : keepMarked args ((f.preds b).map live) =
      (((f.preds b).zip args).filter fun edge => live edge.1).map Prod.snd := by
    rw [← keepMarked_zip, map_snd_zip]
    exact (length_keepMarked _ _ _ hlen).le
  rw [hsnd, mem_map]
  constructor
  · rintro ⟨⟨q, w⟩, hmem, rfl⟩
    obtain ⟨hzip, hlive⟩ := mem_filter.mp hmem
    exact ⟨q, (h.live_iff q).mp hlive, hzip⟩
  · rintro ⟨q, hq, hzip⟩
    exact ⟨(q, v), mem_filter.mpr ⟨hzip, (h.live_iff q).mpr hq⟩, rfl⟩

/-- What escapes in the pruned function is used in the function for something else than an
access. -/
lemma Trimmed.mem_escaping_iff (hf : WellFormed f entry) {b : Block} (hb : Reached f entry b)
    {u v : Value} (hu : u ∈ f.insts b) :
    v ∈ escaping p u ↔ Uses f entry b u v ∧ ¬ Accesses f u v := by
  obtain ⟨inst, hinst⟩ := Option.isSome_iff_exists.mp (hf.values_exist b hb u hu)
  have hinst' : p.inst? u = some (dropArgs ((f.preds b).map live) inst) := by
    rw [h.inst?_of_mem hf hb hu, hinst]
    rfl
  have huses : inst.isPhi = false → (Uses f entry b u v ↔ v ∈ inst.operands) := by
    refine fun hphi => ⟨fun huse => ?_, fun hv => .operand hinst hphi hv⟩
    cases huse with
    | operand hinst1 _ hv => exact Option.some.inj (hinst.symm.trans hinst1) ▸ hv
    | argument hinst1 _ _ =>
      rw [Option.some.inj (hinst.symm.trans hinst1)] at hphi
      cases hphi
  rw [escaping, hinst', Accesses, hinst]
  cases inst with
  | phi ty args =>
    have hphi : u ∈ f.phis b := by
      rw [← f.phis_append_afterPhis] at hu
      refine (mem_append.mp hu).resolve_right fun hafter => ?_
      have hnot := hf.phis_first b hb u hafter
      rw [Function.instIs, hinst] at hnot
      cases hnot
    have hlen := hf.phi_arity b hb u hphi ty args hinst
    have huse : Uses f entry b u v ↔ ∃ q, Reached f entry q ∧ (q, v) ∈ (f.preds b).zip args := by
      constructor
      · intro huse
        cases huse with
        | operand hinst1 hnot _ =>
          rw [← Option.some.inj (hinst.symm.trans hinst1)] at hnot
          cases hnot
        | argument hinst1 hq hv =>
          cases hinst.symm.trans hinst1
          exact ⟨_, hq, hv⟩
      · rintro ⟨q, hq, hv⟩
        exact .argument hinst hq hv
    rw [huse, ← h.mem_keepMarked_iff hlen]
    simp [dropArgs, Inst.operands]
  | load ty a =>
    rw [huses rfl]
    simp [dropArgs, Inst.operands, eq_comm]
  | store a x =>
    rw [huses rfl]
    simp only [dropArgs, Inst.operands, List.mem_cons, not_mem_nil, or_false]
    constructor
    · rintro rfl
      simp
    · rintro ⟨rfl | rfl, hnot⟩
      · by_contra hne
        exact hnot (.inr ⟨x, fun heq => hne heq.symm, rfl⟩)
      · rfl
  | _ =>
    rw [huses rfl]
    simp [dropArgs]

lemma Trimmed.madeAtEntry (hf : WellFormed f entry) : MadeAtEntry p entry (promotable p) := by
  intro s hs
  obtain ⟨⟨b, hb, hmem⟩, hinst, -⟩ := ((h.pruned hf).mem_promotable_iff s).mp hs
  exact (h.wellFormed hf).alloca_entry b hb _ hmem _ _ hinst ▸ hmem

lemma Trimmed.private_iff (hf : WellFormed f entry) (v : Value) :
    isPromoted (promotable p) v = true ↔ Private f entry v := by
  have hp := h.pruned hf
  have hentry := h.insts_eq entry .at_entry
  have halloca : ∀ ty, v ∈ f.insts entry →
      (p.inst? v = some (.alloca ty false) ↔ f.inst? v = some (.alloca ty false)) := by
    intro ty hv
    rw [h.inst?_of_mem hf .at_entry hv]
    cases f.inst? v with
    | none => simp
    | some inst => cases inst <;> simp [dropArgs]
  rw [isPromoted_iff]
  constructor
  · rintro ⟨s, hs, rfl⟩
    have hplaced := h.madeAtEntry hf s hs
    obtain ⟨-, hmade, hhidden⟩ := (hp.mem_promotable_iff s).mp hs
    rw [hentry] at hplaced
    refine ⟨hplaced, ⟨s.ty, (halloca s.ty hplaced).mp hmade⟩, fun b hb u hu huse => ?_⟩
    by_contra hnot
    refine hhidden b ((h.reached_iff hf b).mpr hb) u (h.insts_eq b hb ▸ hu) ?_
    exact (h.mem_escaping_iff hf hb hu).mpr ⟨huse, hnot⟩
  · rintro ⟨hmade, ⟨ty, hinst⟩, haccessed⟩
    refine ⟨⟨v, ty⟩, (hp.mem_promotable_iff _).mpr ⟨⟨entry, .at_entry, hentry ▸ hmade⟩,
      (halloca ty hmade).mpr hinst, fun b hb u hu hmem => ?_⟩, rfl⟩
    have hb' := (h.reached_iff hf b).mp hb
    rw [h.insts_eq b hb'] at hu
    obtain ⟨huse, hnot⟩ := (h.mem_escaping_iff hf hb' hu).mp hmem
    exact hnot (haccessed b hb' u hu huse)

end

/-! ### Construction -/

open Classical in
noncomputable def privateSlots (f : Function) (entry : Block) (v : Value) : Bool :=
  decide (Private f entry v)

lemma privateSlots_iff {f : Function} {entry : Block} {v : Value} :
    privateSlots f entry v = true ↔ Private f entry v := by
  simp [privateSlots]

/-- SSA construction succeeds on a well-formed function, and the result runs as the function does
in which the private slots are cells. -/
theorem construct_preserves_meaning {f : Function} {entry : Block} (hf : WellFormed f entry) :
    ∃ stats g, construct f = .ok (stats, g) ∧
      ∀ (I : Interpretation) (args : List I.Word) (memory : I.Memory) (fuel : Nat),
        Machine.run ⟨g, fun _ => false, args⟩ memory fuel =
          Machine.run ⟨f, privateSlots f entry, args⟩ memory fuel := by
  obtain ⟨count, p, live, hprune, htrim⟩ := prune_trimmed hf
  have hp := htrim.pruned hf
  obtain ⟨dominators, hcompute, hd⟩ :=
    compute_dominatorsOf hp.entry_eq hp.blocks_exist hp.predsAgree
  have hcells : isPromoted (promotable p) = privateSlots f entry := by
    funext v
    rw [Bool.eq_iff_iff, htrim.private_iff hf, privateSlots_iff]
  have htrimmed := fun (I : Interpretation) (args : List I.Word) =>
    htrim.run_eq (M := ⟨f, privateSlots f entry, args⟩) (N := slotMachine (promotable p) p args) hf
      hcells rfl
  unfold construct
  rw [hf.entry_eq, hprune]
  dsimp only [bind, Except.bind]
  rw [hcompute]
  dsimp only
  split
  · next hempty =>
    refine ⟨_, _, rfl, fun I args memory fuel => ?_⟩
    rw [← htrimmed I args memory fuel, slotMachine, isEmpty_iff.mp hempty]
    rfl
  · obtain ⟨homes, placed, walk, held, hstage, hr, hg⟩ := hp.promote hd
    refine ⟨_, _, rfl, fun I args memory fuel => ?_⟩
    rw [← htrimmed I args memory fuel]
    exact hr.run_eq hstage hg args (htrim.madeAtEntry hf) memory fuel

/-- A slot that is set to one of two constants on the way to where it is read. -/
def choice : Function :=
  let info (block : Nat) (inst : Inst) : ValueInfo :=
    { inst, block := some ⟨block⟩, span := .zero, node := 0 }
  { name := "choice", ret := .i64, span := .zero, node := 0
    params := [⟨0⟩]
    values := #[
      info 0 (.param .i1 0), info 0 (.alloca .i64 false), info 0 (.condBr ⟨0⟩ ⟨1⟩ ⟨2⟩),
      info 1 (.iconst 1), info 1 (.store ⟨1⟩ ⟨3⟩), info 1 (.br ⟨3⟩),
      info 2 (.iconst 2), info 2 (.store ⟨1⟩ ⟨6⟩), info 2 (.br ⟨3⟩),
      info 3 (.load .i64 ⟨1⟩), info 3 (.ret (some ⟨9⟩))]
    blocks := #[
      { name := "entry", insts := [⟨0⟩, ⟨1⟩, ⟨2⟩] },
      { name := "then", preds := [⟨0⟩], insts := [⟨3⟩, ⟨4⟩, ⟨5⟩] },
      { name := "else", preds := [⟨0⟩], insts := [⟨6⟩, ⟨7⟩, ⟨8⟩] },
      { name := "join", preds := [⟨1⟩, ⟨2⟩], insts := [⟨9⟩, ⟨10⟩] }]
    layout := [⟨0⟩, ⟨1⟩, ⟨2⟩, ⟨3⟩] }

lemma choice_reached {b : Block} (h : Reached choice ⟨0⟩ b) : b ∈ choice.layout := by
  refine h.induction (by decide) fun p b _ hedge hp => ?_
  have hclosed : ∀ p ∈ choice.layout, ∀ b ∈ choice.successors p, b ∈ choice.layout := by decide
  exact hclosed p hp b hedge

/-- In `choice`, operands are computed in their block or in the entry, and there are no phis. -/
lemma choice_wellFormed : WellFormed choice ⟨0⟩ := by
  have hall : ∀ {P : Block → Prop}, (∀ b ∈ choice.layout, P b) → ∀ b, Reached choice ⟨0⟩ b → P b :=
    fun h b hb => h b (choice_reached hb)
  have hhome : ∀ b ∈ choice.layout, ∀ c ∈ choice.layout, ∀ v ∈ choice.insts b,
      v ∈ choice.insts c → b = c := by decide
  have hphi : ∀ b ∈ choice.layout, choice.phis b = [] ∧
      ∀ v ∈ choice.insts b, choice.instIs Inst.isPhi v = false := by decide
  have halloca : ∀ b ∈ choice.layout, ∀ v ∈ choice.insts b, choice.instIs isSlotInst v = true →
      b ≠ ⟨0⟩ → choice.instIs (fun inst => inst.operands ≠ []) v = true := by decide
  have hdefined : ∀ b ∈ choice.layout, ∀ place < 3, ∀ v ∈ (choice.insts b)[place]?,
      ∀ inst ∈ choice.inst? v, ∀ w ∈ inst.operands,
        w ∈ (choice.insts b).take place ∨ b ≠ ⟨0⟩ ∧ w ∈ choice.insts ⟨0⟩ := by decide
  have hshort : ∀ b ∈ choice.layout, (choice.insts b).length ≤ 3 := by decide
  refine ⟨⟨rfl, by decide, hall (by decide), hall (by decide), hall (by decide), hall (by decide),
    fun b c hb hc => hhome b (choice_reached hb) c (choice_reached hc), hall (by decide),
    hall (by decide), hall (by decide), rfl, hall (by decide), fun b hb v hv => ?_,
    ⟨[⟨1⟩, ⟨2⟩], rfl⟩, by decide, hall (by decide),
    fun b hb place v inst hv hinst _ w hw earlier hpath => ?_, fun b hb v hv ty args hinst => ?_⟩,
    fun b hb v hv ty pinned hinst => ?_⟩
  · rw [(hphi b (choice_reached hb)).1] at hv
    cases hv
  · have hplace : place < 3 := lt_of_lt_of_le (List.getElem?_eq_some_iff.mp hv).1
      (hshort b (choice_reached hb))
    refine (hdefined b (choice_reached hb) place hplace v hv inst hinst w hw).imp_right ?_
    rintro ⟨hne, hw⟩
    exact ⟨⟨0⟩, (List.mem_cons.mp hpath.entry_mem).resolve_left (Ne.symm hne), hw⟩
  · have := (hphi b (choice_reached hb)).2 v hv
    rw [Function.instIs, hinst] at this
    cases this
  · by_contra hne
    have := halloca b (choice_reached hb) v hv (by rw [Function.instIs, hinst]; rfl) hne
    rw [Function.instIs, hinst] at this
    cases this

theorem choice_preserves_meaning : WellFormed choice ⟨0⟩ ∧ ∃ stats g,
    construct choice = .ok (stats, g) ∧
      ∀ (I : Interpretation) (args : List I.Word) (memory : I.Memory) (fuel : Nat),
        Machine.run ⟨g, fun _ => false, args⟩ memory fuel =
          Machine.run ⟨choice, privateSlots choice ⟨0⟩, args⟩ memory fuel :=
  ⟨choice_wellFormed, construct_preserves_meaning choice_wellFormed⟩

end SsaLowering.Proofs
