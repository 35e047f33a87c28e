import SsaLowering.Proofs.TreeVisits

/-!
# What renaming finds out

Renaming finds for each load of a promoted slot the value that the slot holds there, and for each
inserted phi the values that flow into it. What a slot holds is told by the stores and phis on the
way down the dominator tree; a load that was replaced stands for the value it was replaced by.
-/

namespace SsaLowering.Proofs

open Ir Ssa List

variable {w v : Value} {rep : Value → Value} {s : Slot} {b : Block}
  {before after insts : List Value} {walk walk' : Renaming} {seen : List Block}

/-- What is fixed when renaming starts: a pruned function, its promotable slots, and the function
with phis inserted. -/
structure Stage (p : Function) (entry : Block) (doms : Dominators) (slots : List Slot)
    (homes : List (Slot × Block)) (placed : Placed) : Prop where
  pruned : Pruned p entry
  dom : DominatorsOf p entry doms
  slots_iff : ∀ s, s ∈ slots ↔ PrivateSlot p entry s
  distinct : Distinct slots
  places : PhiHomes slots p entry doms slots homes
  inserted : Inserted p homes placed
  arranged : ∀ b, placed.function.insts b = p.phis b ++ newPhis p homes b ++ p.afterPhis b

/-- A value is a load of one of the slots. -/
def IsLoad (slots : List Slot) (p : Function) (v : Value) : Prop :=
  ∃ s, access? slots p v = some (s, .load)

/-- A value stands for what a slot holds; if nothing was stored, it is undefined. -/
def SourceOf (undefs : List (Ty × Value)) (slot : Slot) (held : Option Value) (w : Value) : Prop :=
  match held with
  | some x => w = x
  | none => (slot.ty, w) ∈ undefs

lemma SourceOf.mono {undefs undefs' : List (Ty × Value)} (hsub : undefs <+: undefs') {slot : Slot}
    {held : Option Value} (h : SourceOf undefs slot held w) : SourceOf undefs' slot held w := by
  cases held with
  | some x => exact h
  | none => exact hsub.subset h

def holdStep (slots : List Slot) (p : Function) (phis : List (Value × Slot)) (rep : Value → Value)
    (held : Held) (v : Value) : Held :=
  match phis.lookup v with
  | some slot => (slot.address, v) :: held
  | none =>
    match access? slots p v with
    | some (slot, .store stored) => (slot.address, rep stored) :: held
    | _ => held

/-- A replacement of loads that agrees with what is known of them. -/
structure Agrees (slots : List Slot) (p : Function) (reads : List (Value × Value))
    (rep : Value → Value) : Prop where
  read : ∀ e ∈ reads, rep e.1 = e.2
  other : ∀ x, ¬ IsLoad slots p x → rep x = x

lemma Agrees.mono {slots : List Slot} {p : Function} {reads reads' : List (Value × Value)}
    (h : Agrees slots p reads' rep) (hsub : reads <:+ reads') : Agrees slots p reads rep :=
  ⟨fun e he => h.read e (hsub.subset he), h.other⟩

def argsOf (function : Function) (phi : Value) : List Value :=
  match function.inst? phi with
  | some (.phi _ args) => args
  | _ => []

section

variable {p : Function} {entry : Block} {doms : Dominators} {slots : List Slot}
  {homes : List (Slot × Block)} {placed : Placed}

/-! ### Inserted phis -/

lemma Inserted.lookup_eq_some_iff (h : Inserted p homes placed) :
    placed.phis.lookup v = some s ↔
      ∃ i b, homes[i]? = some (s, b) ∧ v = ⟨p.values.size + i⟩ := by
  have hkeys : (placed.phis.map Prod.fst).Nodup := by
    have hmap : placed.phis.map Prod.fst =
        (List.range homes.length).map fun i => ⟨p.values.size + i⟩ := by
      rw [h.phis_eq, map_map, range_eq_range', ← zipIdx_map_snd, map_map]
      rfl
    rw [hmap]
    refine nodup_range.map fun i j hij => ?_
    have := congrArg Value.id hij
    dsimp only at this
    omega
  rw [lookup_eq_some_iff_mem hkeys, h.mem_phis_iff]

lemma Inserted.lookup_old (h : Inserted p homes placed) (hv : v.id < p.values.size) :
    placed.phis.lookup v = none := by
  cases hl : placed.phis.lookup v with
  | none => rfl
  | some s =>
    obtain ⟨i, b, -, rfl⟩ := h.lookup_eq_some_iff.mp hl
    dsimp only at hv
    omega

section

variable (h : Stage p entry doms slots homes placed)
include h

lemma Stage.homes_get {i : Nat} (hget : homes[i]? = some (s, b)) :
    s ∈ slots ∧ Reached p entry b ∧ b ≠ entry := by
  have hmem := mem_of_getElem? hget
  exact ⟨h.places.slot_mem _ hmem, h.places.reached h.dom hmem⟩

lemma Stage.newPhis_entry : newPhis p homes entry = [] := by
  refine eq_nil_iff_forall_not_mem.mpr fun v hv => ?_
  obtain ⟨i, s, hget, -⟩ := mem_newPhis_iff.mp hv
  exact (h.homes_get hget).2.2 rfl

lemma Stage.insts_entry : placed.function.insts entry = p.insts entry := by
  rw [h.arranged, h.newPhis_entry, append_nil, p.phis_append_afterPhis]

/-- An instruction of a block is an old one or an inserted phi. -/
lemma Stage.mem_insts : v ∈ placed.function.insts b ↔ v ∈ p.insts b ∨ v ∈ newPhis p homes b := by
  rw [h.arranged, ← p.phis_append_afterPhis b]
  simp only [List.mem_append]
  tauto

lemma Stage.filter_insts (hb : Reached p entry b) :
    (placed.function.insts b).filter (·.id < p.values.size) = p.insts b := by
  have hold : ∀ v ∈ p.insts b, decide (v.id < p.values.size) = true :=
    fun v hv => decide_eq_true (h.pruned.lt_size hb hv)
  have hnew : (newPhis p homes b).filter (·.id < p.values.size) = [] := by
    refine filter_eq_nil_iff.mpr fun v hv => ?_
    obtain ⟨i, s, -, rfl⟩ := mem_newPhis_iff.mp hv
    simp
  rw [h.arranged, filter_append, filter_append, hnew, append_nil,
    ← filter_append, p.phis_append_afterPhis]
  exact filter_eq_self.mpr hold

lemma Stage.old_split (hb : Reached p entry b)
    (hsplit : placed.function.insts b = before ++ v :: after) (hv : v.id < p.values.size) :
    p.insts b = before.filter (·.id < p.values.size) ++
      v :: after.filter (·.id < p.values.size) := by
  rw [← h.filter_insts hb, hsplit, filter_append, filter_cons,
    if_pos (decide_eq_true hv)]

/-- An operand of an old instruction stands before it, or in a block above. -/
lemma Stage.operand_before (hb : Reached p entry b) {inst : Inst}
    (hsplit : placed.function.insts b = before ++ v :: after) (hinst : p.inst? v = some inst)
    (hphi : inst.isPhi = false) (hw : w ∈ inst.operands) :
    w ∈ before ∨ ∃ d, StrictlyDominates (Edge p) entry d b ∧ w ∈ p.insts d := by
  have hsplit' := h.old_split hb hsplit (Function.lt_size_of_inst? hinst)
  refine (h.pruned.operand_available hb hsplit' hinst hphi hw).imp_left fun hmem => ?_
  exact (mem_filter.mp hmem).1

end

/-! ### The state of the walk -/

/-- What holds of the function and the undefined values throughout the walk. -/
structure Walked (p : Function) (entry : Block) (homes : List (Slot × Block)) (placed : Placed)
    (walk : Renaming) : Prop where
  frame : walk.function =
    { p with values := walk.function.values, blocks := walk.function.blocks }
  size_eq : walk.function.values.size = p.values.size + homes.length + walk.undefs.length
  blocks_size : walk.function.blocks.size = p.blocks.size
  undef_id : ∀ (i : Nat) (ty : Ty) (u : Value), walk.undefs[i]? = some (ty, u) →
    u = ⟨p.values.size + homes.length + i⟩
  undef_value : ∀ e ∈ walk.undefs, ∃ info, walk.function.value? e.2 = some info ∧
    info.inst = .undef e.1 ∧ info.block = some entry
  old_value : ∀ v : Value, v.id < p.values.size → walk.function.value? v = p.value? v
  phi_value : ∀ (i : Nat) (s : Slot) (b : Block), homes[i]? = some (s, b) →
    ∃ info args, walk.function.value? ⟨p.values.size + i⟩ = some info ∧
      info.inst = .phi s.ty args ∧ args.length = (p.preds b).length ∧ info.block = some b
  preds_eq : ∀ b, walk.function.preds b = p.preds b
  insts_eq : ∀ b, b ≠ entry → walk.function.insts b = placed.function.insts b
  entry_eq : walk.function.insts entry =
    p.params ++ (walk.undefs.map Prod.snd).reverse ++ (p.insts entry).drop p.params.length

lemma Stage.walked_start (h : Stage p entry doms slots homes placed) :
    Walked p entry homes placed { function := placed.function } where
  frame := h.inserted.frame
  size_eq := h.inserted.size_eq
  blocks_size := h.inserted.blocks_size
  undef_id := by simp
  undef_value := by simp
  old_value := h.inserted.value_old
  phi_value i s b hget := by
    obtain ⟨info, hinfo, hinst, hblock⟩ := h.inserted.value_new i s b hget
    exact ⟨info, _, hinfo, hinst, length_replicate, hblock⟩
  preds_eq := h.inserted.preds_eq
  insts_eq _ _ := rfl
  entry_eq := by
    rw [h.insts_entry, map_nil, reverse_nil, append_nil]
    exact List.prefix_iff_eq_append.mp h.pruned.params_lead |>.symm

namespace Walked

lemma inst_old (h : Walked p entry homes placed walk) (hv : v.id < p.values.size) :
    walk.function.inst? v = p.inst? v := by
  rw [Function.inst?, h.old_value v hv, Function.inst?]

lemma entry?_eq (h : Walked p entry homes placed walk) (hp : Pruned p entry) :
    walk.function.entry? = some entry := by
  rw [h.frame]
  exact hp.entry_eq

lemma undef_lt (h : Walked p entry homes placed walk) {e : Ty × Value} (he : e ∈ walk.undefs) :
    p.values.size + homes.length ≤ e.2.id ∧ e.2.id < walk.function.values.size := by
  obtain ⟨ty, u⟩ := e
  obtain ⟨i, hi⟩ := List.mem_iff_getElem?.mp he
  have hlt := (List.getElem?_eq_some_iff.mp hi).1
  rw [h.undef_id i ty u hi, h.size_eq]
  dsimp only
  omega

end Walked

lemma Walked.with_reads (h : Walked p entry homes placed walk) (reads : List (Value × Value)) :
    Walked p entry homes placed { walk with reads } where
  frame := h.frame
  size_eq := h.size_eq
  blocks_size := h.blocks_size
  undef_id := h.undef_id
  undef_value := h.undef_value
  old_value := h.old_value
  phi_value := h.phi_value
  preds_eq := h.preds_eq
  insts_eq := h.insts_eq
  entry_eq := h.entry_eq

/-- The walk has only found more. -/
structure Grows (walk walk' : Renaming) : Prop where
  reads : walk.reads <:+ walk'.reads
  undefs : walk.undefs <+: walk'.undefs

lemma Grows.refl (walk : Renaming) : Grows walk walk :=
  ⟨List.suffix_rfl, List.prefix_rfl⟩

lemma Grows.trans {walk1 walk2 walk3 : Renaming} (h : Grows walk1 walk2) (h' : Grows walk2 walk3) :
    Grows walk1 walk3 :=
  ⟨h.reads.trans h'.reads, h.undefs.trans h'.undefs⟩

/-- A step of the walk that at most adds an undefined value. -/
structure AddsUndef (p : Function) (homes : List (Slot × Block)) (walk walk' : Renaming) :
    Prop where
  reads : walk'.reads = walk.reads
  undefs : walk.undefs <+: walk'.undefs
  values : ∀ v : Value, v.id < p.values.size + homes.length →
    walk'.function.value? v = walk.function.value? v

lemma AddsUndef.argsOf_eq (h : AddsUndef p homes walk walk') {i : Nat} {home : Slot × Block}
    (hget : homes[i]? = some home) :
    argsOf walk'.function ⟨p.values.size + i⟩ = argsOf walk.function ⟨p.values.size + i⟩ := by
  have hi := (List.getElem?_eq_some_iff.mp hget).1
  rw [argsOf, Function.inst?, h.values _ (by dsimp only; omega), argsOf, Function.inst?]

/-- The walk with one more undefined value, behind the parameters. -/
def addUndef (walk : Renaming) (entry : Block) (ty : Ty) : Renaming :=
  { walk with
    function := (walk.function.addValue
      { inst := .undef ty, block := some entry, span := walk.function.span
        node := walk.function.node }).2.modifyBlock entry fun info =>
          { info with
            insts := info.insts.insertIdx walk.function.params.length ⟨walk.function.values.size⟩ }
    undefs := walk.undefs ++ [(ty, ⟨walk.function.values.size⟩)] }

lemma undef_eq_addUndef {entry : Block} {ty : Ty} (hentry : walk.function.entry? = some entry)
    (hlook : walk.undefs.lookup ty = none) :
    walk.undef ty = (⟨walk.function.values.size⟩, addUndef walk entry ty) := by
  unfold Renaming.undef addUndef
  rw [hlook]
  dsimp only
  rw [hentry, Option.getD_some]
  rfl

lemma value?_addUndef (entry : Block) (ty : Ty) (hv : v.id < walk.function.values.size) :
    (addUndef walk entry ty).function.value? v = walk.function.value? v := by
  unfold addUndef
  rw [Function.value?_modifyBlock, Function.value?_addValue, if_neg (by omega)]

lemma Walked.addUndef (h : Walked p entry homes placed walk) (hp : Pruned p entry) (ty : Ty) :
    Walked p entry homes placed (addUndef walk entry ty) := by
  have hold := fun {v : Value} hv => @value?_addUndef v walk entry ty hv
  have hsize := h.size_eq
  have hblock : ∀ b, (Proofs.addUndef walk entry ty).function.block? b =
      if b = entry then (walk.function.block? b).map fun info => { info with
        insts := info.insts.insertIdx walk.function.params.length ⟨walk.function.values.size⟩ }
      else walk.function.block? b := by
    intro b
    rw [Proofs.addUndef, Function.block?_modifyBlock, Function.block?_addValue]
  refine ⟨?_, ?_, ?_, fun i t u hget => ?_, fun e he => ?_, fun v hv => ?_, fun i s b hget => ?_,
    fun b => ?_, fun b hb => ?_, ?_⟩
  · unfold Proofs.addUndef
    rw [h.frame]
    rfl
  · simp [Proofs.addUndef, Function.addValue, Function.modifyBlock, hsize, Nat.add_assoc]
  · simp [Proofs.addUndef, Function.addValue, Function.modifyBlock, h.blocks_size]
  · rw [Proofs.addUndef] at hget
    rw [getElem?_append] at hget
    split at hget
    · exact h.undef_id i t u hget
    · next hi =>
      obtain ⟨hi', heq⟩ := List.getElem?_eq_some_iff.mp hget
      rw [List.length_singleton] at hi'
      obtain rfl : i = walk.undefs.length := by omega
      simp only [Nat.sub_self, List.getElem_cons_zero, Prod.mk.injEq] at heq
      rw [← heq.2, hsize]
  · rcases List.mem_append.mp he with he | he
    · rw [hold (h.undef_lt he).2]
      exact h.undef_value e he
    · obtain rfl := mem_singleton.mp he
      unfold Proofs.addUndef
      rw [Function.value?_modifyBlock, Function.value?_addValue, if_pos rfl]
      exact ⟨_, rfl, rfl, rfl⟩
  · rw [hold (by omega)]
    exact h.old_value v hv
  · have hi := (List.getElem?_eq_some_iff.mp hget).1
    rw [hold (by dsimp only; omega)]
    exact h.phi_value i s b hget
  · rw [← h.preds_eq b, Function.preds, hblock, Function.preds]
    split
    · rw [Option.map_map]
      rfl
    · rfl
  · rw [← h.insts_eq b hb]
    refine Function.insts_congr ?_
    rw [hblock, if_neg hb]
  · obtain ⟨info, hinfo⟩ : ∃ info, walk.function.block? entry = some info :=
      ⟨_, Array.getElem?_eq_getElem (h.blocks_size ▸ hp.blocks_exist entry .at_entry)⟩
    have hinsts : info.insts = p.params ++
        ((walk.undefs.map Prod.snd).reverse ++ (p.insts entry).drop p.params.length) := by
      rw [← append_assoc, ← h.entry_eq, Function.insts, hinfo]
      rfl
    have hparams : walk.function.params = p.params := by rw [h.frame]
    rw [Function.insts, hblock, if_pos rfl, hinfo, Option.map_some, Option.map_some,
      Option.getD_some, hinsts, hparams, insertIdx_length_append, Proofs.addUndef]
    simp

lemma Walked.undef (h : Walked p entry homes placed walk) (hp : Pruned p entry) (ty : Ty) :
    Walked p entry homes placed (walk.undef ty).2 ∧ AddsUndef p homes walk (walk.undef ty).2 ∧
      (ty, (walk.undef ty).1) ∈ (walk.undef ty).2.undefs := by
  cases hlook : walk.undefs.lookup ty with
  | some u =>
    have heq : walk.undef ty = (u, walk) := by
      unfold Renaming.undef
      rw [hlook]
    rw [heq]
    refine ⟨h, ⟨rfl, List.prefix_rfl, fun _ _ => rfl⟩, ?_⟩
    obtain ⟨before, after, happ, -⟩ := lookup_eq_some_iff.mp hlook
    rw [happ]
    exact mem_append_right _ mem_cons_self
  | none =>
    rw [undef_eq_addUndef (h.entry?_eq hp) hlook]
    refine ⟨h.addUndef hp ty, ⟨rfl, List.prefix_append _ _, fun v hv => ?_⟩, ?_⟩
    · exact value?_addUndef entry ty (by rw [h.size_eq]; omega)
    · exact mem_append_right _ mem_cons_self

/-- The value that a slot holds is found, or made up. -/
lemma Walked.current (h : Walked p entry homes placed walk) (hp : Pruned p entry) (held : Held)
    (s : Slot) :
    Walked p entry homes placed (walk.current held s).2 ∧
      AddsUndef p homes walk (walk.current held s).2 ∧
      SourceOf (walk.current held s).2.undefs s (held.lookup s.address)
        (walk.current held s).1 := by
  unfold Renaming.current
  cases held.lookup s.address with
  | some x => exact ⟨h, ⟨rfl, List.prefix_rfl, fun _ _ => rfl⟩, rfl⟩
  | none => exact h.undef hp s.ty

/-! ### One block -/

def sceneOf (slots : List Slot) (placed : Placed) (doms : Dominators) : Scene :=
  { slots, phis := placed.phis, dominators := doms }

section Instructions

variable {held : Held}

/-- What an instruction does to the walk. -/
inductive InstStep (p : Function) (slots : List Slot) (placed : Placed) (held : Held)
    (walk : Renaming) (v : Value) : Held × Renaming → Prop where
  | phi (s : Slot) (hphi : placed.phis.lookup v = some s) :
      InstStep p slots placed held walk v ((s.address, v) :: held, walk)
  | store (s : Slot) (x : Value) (hphi : placed.phis.lookup v = none)
      (hacc : access? slots p v = some (s, .store x)) :
      InstStep p slots placed held walk v
        ((s.address, (walk.reads.lookup x).getD x) :: held, walk)
  | load (s : Slot) (hphi : placed.phis.lookup v = none)
      (hacc : access? slots p v = some (s, .load)) :
      InstStep p slots placed held walk v (held, { (walk.current held s).2 with
        reads := (v, (walk.current held s).1) :: (walk.current held s).2.reads })
  | other (hphi : placed.phis.lookup v = none) (hacc : access? slots p v = none) :
      InstStep p slots placed held walk v (held, walk)

lemma Stage.instStep (h : Stage p entry doms slots homes placed)
    (hw : Walked p entry homes placed walk) (hb : Reached p entry b)
    (hv : v ∈ placed.function.insts b) :
    InstStep p slots placed held walk v
      (renameInst (sceneOf slots placed doms) (held, walk) v) := by
  unfold renameInst sceneOf
  cases hphi : placed.phis.lookup v with
  | some s => exact .phi s hphi
  | none =>
    have hold : v ∈ p.insts b := by
      refine (h.mem_insts.mp hv).resolve_right fun hnew => ?_
      obtain ⟨i, s, hget, rfl⟩ := mem_newPhis_iff.mp hnew
      rw [h.inserted.lookup_eq_some_iff.mpr ⟨i, b, hget, rfl⟩] at hphi
      cases hphi
    have hacc : access? slots walk.function v = access? slots p v :=
      access?_congr (hw.inst_old (h.pruned.lt_size hb hold))
    dsimp only
    rw [hacc]
    cases hp : access? slots p v with
    | none => exact .other hphi hp
    | some access =>
      obtain ⟨s, access⟩ := access
      cases access with
      | load => exact .load s hphi hp
      | store x => exact .store s x hphi hp

/-- Which loads the walk has read: those further up in a block, and those of blocks seen before. -/
structure Keyed (slots : List Slot) (p : Function) (walk : Renaming) (seen : List Block)
    (before : List Value) : Prop where
  mem_iff : ∀ x, x ∈ walk.reads.map Prod.fst ↔
    IsLoad slots p x ∧ (x ∈ before ∨ ∃ d ∈ seen, x ∈ p.insts d)
  nodup : (walk.reads.map Prod.fst).Nodup

/-- What is known of the loads among some instructions, behind others. -/
def LoadsKnown (slots : List Slot) (p : Function) (placed : Placed) (rep : Value → Value)
    (walk : Renaming) (held : Held) (insts : List Value) : Prop :=
  ∀ before v after s, insts = before ++ v :: after → access? slots p v = some (s, .load) →
    ∃ w, (v, w) ∈ walk.reads ∧
      SourceOf walk.undefs s ((before.foldl (holdStep slots p placed.phis rep) held).lookup
        s.address) w

lemma LoadsKnown.mono (h : LoadsKnown slots p placed rep walk held insts) (hg : Grows walk walk') :
    LoadsKnown slots p placed rep walk' held insts := by
  intro before v after s hsplit hacc
  obtain ⟨w, hmem, hsource⟩ := h before v after s hsplit hacc
  exact ⟨w, hg.reads.subset hmem, hsource.mono hg.undefs⟩

lemma LoadsKnown.nil : LoadsKnown slots p placed rep walk held [] := by
  intro before v after s hsplit
  cases before <;> cases hsplit

/-- Loads behind an instruction, and the instruction itself if it is one. -/
lemma LoadsKnown.cons
    (h : LoadsKnown slots p placed rep walk (holdStep slots p placed.phis rep held v) insts)
    (hv : ∀ s, access? slots p v = some (s, .load) → ∃ w, (v, w) ∈ walk.reads ∧
      SourceOf walk.undefs s (held.lookup s.address) w) :
    LoadsKnown slots p placed rep walk held (v :: insts) := by
  intro before x after s hsplit hacc
  cases before with
  | nil =>
    obtain ⟨rfl, -⟩ := List.cons.inj hsplit
    exact hv s hacc
  | cons y before =>
    obtain ⟨rfl, htail⟩ := List.cons.inj hsplit
    exact h before x after s htail hacc

/-- Renaming some instructions of a block has the effect that it should. -/
structure InstsStep (p : Function) (entry : Block) (slots : List Slot)
    (homes : List (Slot × Block)) (placed : Placed) (seen : List Block) (before insts : List Value)
    (held : Held) (walk : Renaming) (result : Held × Renaming) : Prop where
  walked : Walked p entry homes placed result.2
  grows : Grows walk result.2
  values : ∀ v : Value, v.id < p.values.size + homes.length →
    result.2.function.value? v = walk.function.value? v
  keyed : Keyed slots p result.2 seen (before ++ insts)
  held_eq : ∀ rep, Agrees slots p result.2.reads rep →
    result.1 = insts.foldl (holdStep slots p placed.phis rep) held
  known : ∀ rep, Agrees slots p result.2.reads rep →
    LoadsKnown slots p placed rep result.2 held insts

/-- A stored value that was itself loaded has been read before. -/
lemma Stage.lookup_stored (h : Stage p entry doms slots homes placed)
    (hb : Reached p entry b) {x : Value} (hsplit : placed.function.insts b = before ++ v :: after)
    (hacc : access? slots p v = some (s, .store x))
    (hseen : ∀ d, StrictlyDominates (Edge p) entry d b → d ∈ seen)
    (hk : Keyed slots p walk seen before) (hrep : Agrees slots p walk.reads rep) :
    (walk.reads.lookup x).getD x = rep x := by
  cases hlook : walk.reads.lookup x with
  | some w =>
    rw [lookup_eq_some_iff_mem hk.nodup] at hlook
    rw [Option.getD_some, hrep.read _ hlook]
  | none =>
    refine (hrep.other x fun hload => ?_).symm
    have hkey : x ∈ walk.reads.map Prod.fst := by
      refine (hk.mem_iff x).mpr ⟨hload, ?_⟩
      obtain ⟨-, hinst⟩ := (access?_eq_store_iff h.distinct).mp hacc
      refine (h.operand_before hb hsplit hinst rfl (by simp [Inst.operands])).imp_right ?_
      rintro ⟨d, hd, hx⟩
      exact ⟨d, hseen d hd, hx⟩
    obtain ⟨e, he, rfl⟩ := mem_map.mp hkey
    rw [lookup_eq_none_iff] at hlook
    simpa using hlook e he

/-- A load that is read now was not read before. -/
lemma Stage.keyed_load (h : Stage p entry doms slots homes placed) (hb : Reached p entry b)
    (hnew : b ∉ seen) (hreach : ∀ d ∈ seen, Reached p entry d)
    (hsplit : placed.function.insts b = before ++ v :: after) (hload : IsLoad slots p v)
    (hk : Keyed slots p walk seen before) (hreads : walk'.reads = (v, w) :: walk.reads) :
    Keyed slots p walk' seen (before ++ [v]) := by
  have hold : v.id < p.values.size := by
    obtain ⟨s, hacc⟩ := hload
    obtain ⟨-, ty, hinst⟩ := (access?_eq_load_iff h.distinct).mp hacc
    exact Function.lt_size_of_inst? hinst
  have hsplit' := h.old_split hb hsplit hold
  have hmem : v ∈ p.insts b := hsplit' ▸ mem_append_right _ mem_cons_self
  refine ⟨fun x => ?_, ?_⟩
  · rw [hreads, map_cons, mem_cons, hk.mem_iff, List.mem_append, mem_singleton]
    constructor
    · rintro (rfl | ⟨hx, hx'⟩)
      · exact ⟨hload, .inl (.inr rfl)⟩
      · exact ⟨hx, hx'.imp_left .inl⟩
    · rintro ⟨hx, (hbefore | rfl) | habove⟩
      · exact .inr ⟨hx, .inl hbefore⟩
      · exact .inl rfl
      · exact .inr ⟨hx, .inr habove⟩
  · rw [hreads, map_cons, nodup_cons, hk.mem_iff]
    refine ⟨?_, hk.nodup⟩
    rintro ⟨-, hbefore | ⟨d, hd, hvd⟩⟩
    · have hnodup := h.pruned.insts_nodup b hb
      rw [hsplit', nodup_append] at hnodup
      exact hnodup.2.2 v (mem_filter.mpr ⟨hbefore, decide_eq_true hold⟩) v
        mem_cons_self rfl
    · exact hnew (h.pruned.home_unique b d hb (hreach d hd) v hmem hvd ▸ hd)

lemma InstsStep.cons {held1 : Held} {walk1 : Renaming} {result : Held × Renaming}
    (h : InstsStep p entry slots homes placed seen (before ++ [v]) insts held1 walk1 result)
    (hg : Grows walk walk1) (hvalues : ∀ v : Value, v.id < p.values.size + homes.length →
      walk1.function.value? v = walk.function.value? v)
    (hheld : ∀ rep, Agrees slots p walk1.reads rep →
      held1 = holdStep slots p placed.phis rep held v)
    (hload : ∀ s, access? slots p v = some (s, .load) → ∃ w, (v, w) ∈ walk1.reads ∧
      SourceOf walk1.undefs s (held.lookup s.address) w) :
    InstsStep p entry slots homes placed seen before (v :: insts) held walk result where
  walked := h.walked
  grows := hg.trans h.grows
  values w hw := (h.values w hw).trans (hvalues w hw)
  keyed := append_cons before v insts ▸ h.keyed
  held_eq rep hrep := by
    rw [foldl_cons, ← hheld rep (hrep.mono h.grows.reads)]
    exact h.held_eq rep hrep
  known rep hrep := by
    have hknown := h.known rep hrep
    rw [hheld rep (hrep.mono h.grows.reads)] at hknown
    refine hknown.cons fun s hacc => ?_
    obtain ⟨w, hmem, hsource⟩ := hload s hacc
    exact ⟨w, h.grows.reads.subset hmem, hsource.mono h.grows.undefs⟩

lemma Stage.instsStep (h : Stage p entry doms slots homes placed) (hb : Reached p entry b)
    (hnew : b ∉ seen) (hreach : ∀ d ∈ seen, Reached p entry d)
    (hseen : ∀ d, StrictlyDominates (Edge p) entry d b → d ∈ seen) (before insts : List Value)
    (hsplit : placed.function.insts b = before ++ insts) (held : Held) (walk : Renaming)
    (hw : Walked p entry homes placed walk) (hk : Keyed slots p walk seen before) :
    InstsStep p entry slots homes placed seen before insts held walk
      (insts.foldl (renameInst (sceneOf slots placed doms)) (held, walk)) := by
  induction insts generalizing before held walk with
  | nil =>
    refine ⟨hw, .refl walk, fun _ _ => rfl, ?_, fun _ _ => rfl, fun _ _ => .nil⟩
    rwa [append_nil]
  | cons v insts ih =>
    have hv : v ∈ placed.function.insts b := hsplit ▸ mem_append_right _ mem_cons_self
    have hsplit' : placed.function.insts b = (before ++ [v]) ++ insts := by
      rw [hsplit, append_cons]
    -- an instruction that is no load leaves the reads as they are
    have hkeep : ¬ IsLoad slots p v → Keyed slots p walk seen (before ++ [v]) := by
      intro hnot
      refine ⟨fun x => ?_, hk.nodup⟩
      rw [hk.mem_iff, List.mem_append, mem_singleton]
      refine and_congr_right fun hx => or_congr_left ?_
      exact ⟨.inl, fun hx' => hx'.resolve_right fun heq => hnot (heq ▸ hx)⟩
    have hnone : ∀ {s}, ¬ IsLoad slots p v → access? slots p v = some (s, .load) →
        ∃ w, (v, w) ∈ walk.reads ∧ SourceOf walk.undefs s (held.lookup s.address) w :=
      fun {s} hnot hacc => absurd ⟨s, hacc⟩ hnot
    rw [foldl_cons]
    have hstep := @instStep v b walk p entry doms slots homes placed held h hw hb hv
    generalize renameInst (sceneOf slots placed doms) (held, walk) v = next at hstep
    cases hstep with
    | phi s hphi =>
      have hnot : ¬ IsLoad slots p v := by
        rintro ⟨t, hacc⟩
        obtain ⟨-, ty, hinst⟩ := (access?_eq_load_iff h.distinct).mp hacc
        rw [h.inserted.lookup_old (Function.lt_size_of_inst? hinst)] at hphi
        cases hphi
      refine (ih _ hsplit' _ walk hw (hkeep hnot)).cons (.refl walk) (fun _ _ => rfl)
        (fun rep _ => ?_) (fun s hacc => hnone hnot hacc)
      rw [holdStep, hphi]
    | store s x hphi hacc =>
      have hnot : ¬ IsLoad slots p v := by
        rintro ⟨t, hacc'⟩
        rw [hacc] at hacc'
        cases hacc'
      refine (ih _ hsplit' _ walk hw (hkeep hnot)).cons (.refl walk) (fun _ _ => rfl)
        (fun rep hrep => ?_) (fun s hacc => hnone hnot hacc)
      rw [holdStep, hphi, hacc, h.lookup_stored hb hsplit hacc hseen hk hrep]
    | other hphi hacc =>
      have hnot : ¬ IsLoad slots p v := by
        rintro ⟨t, hacc'⟩
        rw [hacc] at hacc'
        cases hacc'
      refine (ih _ hsplit' held walk hw (hkeep hnot)).cons (.refl walk) (fun _ _ => rfl)
        (fun rep _ => ?_) (fun s hacc => hnone hnot hacc)
      rw [holdStep, hphi, hacc]
    | load s hphi hacc =>
      obtain ⟨hw', hadds, hsource⟩ := hw.current h.pruned held s
      have hreads : (v, (walk.current held s).1) :: (walk.current held s).2.reads =
          (v, (walk.current held s).1) :: walk.reads := by rw [hadds.reads]
      have hrest := ih _ hsplit' held _ (hw'.with_reads _)
        (h.keyed_load hb hnew hreach hsplit ⟨s, hacc⟩ hk hreads)
      refine hrest.cons ⟨?_, hadds.undefs⟩ hadds.values (fun rep _ => ?_) (fun t hacc' => ?_)
      · rw [hreads]
        exact List.suffix_cons _ _
      · rw [holdStep, hphi, hacc]
      · rw [hacc] at hacc'
        cases hacc'
        exact ⟨_, mem_cons_self, hsource⟩

end Instructions

end

end SsaLowering.Proofs
