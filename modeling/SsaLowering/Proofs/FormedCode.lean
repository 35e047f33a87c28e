import SsaLowering.Proofs.Building

/-!
# Well-formed code under construction

What holds of a function at every point of its construction. Some blocks have not been ended yet, so
paths say little; instead each block carries a set of values that are computed on the way to it,
and an edge may be made only from a block at whose end the set of its target is available.
-/

namespace SsaLowering.Proofs

open Ir List
open Ir.Builder (firstBlock)

variable {v : Value} {b p t : Block} {block : Block}

/-- The code of a function under construction: what stands at the head of the entry and behind it,
what each value is and where, and the recorded edges. -/
@[ext] structure Code where
  head : List Value
  code : Block → List Value
  inst : Value → Option Inst
  home : Value → Option Block
  preds : Block → List Block
  params : List Value
  blocks : Nat
  values : Nat

namespace Code

def next (c : Code) : Value :=
  ⟨c.values⟩

lemma ne_next {c : Code} (h : v.id < c.values) : v ≠ c.next := by
  rintro rfl
  exact lt_irrefl _ h

def instIs (c : Code) (property : Inst → Bool) (v : Value) : Bool :=
  (c.inst v).any property

/-- Where control goes from the end of a block. -/
def exits (c : Code) (block : Block) : List Block :=
  (((c.code block).getLast?.bind c.inst).map Inst.successors).getD []

/-- The last instruction of a block is a terminator. -/
def Ended (c : Code) (block : Block) : Prop :=
  ∃ v, (c.code block).getLast? = some v ∧ c.instIs Inst.isTerminator v = true

def addBlock (c : Code) : Code :=
  { c with blocks := c.blocks + 1 }

def addValue (c : Code) (inst : Inst) (block : Block) : Code :=
  { c with
    inst := Function.update c.inst c.next (some inst)
    home := Function.update c.home c.next (some block)
    values := c.values + 1 }

def append (c : Code) (block : Block) (inst : Inst) : Code :=
  { c.addValue inst block with
    code := Function.update c.code block (c.code block ++ [c.next])
    preds := fun t => c.preds t ++ List.replicate (inst.successors.count t) block }

/-- Adds a value at the head; `params` are the parameters among the values there. -/
def addHead (c : Code) (inst : Inst) (params : List Value) : Code :=
  { c.addValue inst firstBlock with head := c.head ++ [c.next], params }

def addSlot (c : Code) (ty : Ty) (pinned : Bool) : Code :=
  c.addHead (.alloca ty pinned) c.params

def addParam (c : Code) (ty : Ty) : Code :=
  c.addHead (.param ty c.params.length) (c.params ++ [c.next])

/-- Makes a phi the only instruction of a block. -/
def join (c : Code) (target : Block) (ty : Ty) (args : List Value) : Code :=
  { c.addValue (.phi ty args) target with code := Function.update c.code target [c.next] }

end Code

/-- Which values are known to be computed on entry to each block. -/
abbrev Avail := Block → Value → Prop

def isStore : Inst → Bool
  | .store .. => true
  | _ => false

def isSlot : Inst → Bool
  | .alloca .. => true
  | _ => false

/-- The operands of an instruction other than the address of a load or store. -/
def exposed : Inst → List Value
  | .load .. => []
  | .store _ stored => [stored]
  | inst => inst.operands

/-- A value that instructions may use for anything: it exists, it is not made by a store, which makes
none, and it is not the address of a slot. -/
def Usable (c : Code) (v : Value) : Prop :=
  v.id < c.values ∧ c.instIs isStore v = false ∧ c.instIs isSlot v = false

/-- What is computed by the end of the code that a block has so far, and can be used. -/
def AvailableAt (A : Avail) (c : Code) (block : Block) (v : Value) : Prop :=
  (A block v ∨ v ∈ c.code block ∨ v ∈ c.head) ∧ Usable c v

/-- What an instruction can use at the end of a block: what is available, and the slot that it loads
from or stores to. -/
def OperandAt (A : Avail) (c : Code) (block : Block) (inst : Inst) (v : Value) : Prop :=
  AvailableAt A c block v ∨ v ∈ c.head ∧ v ∉ exposed inst

def isHeadInst : Inst → Bool
  | .param .. | .alloca .. => true
  | _ => false

/-- Well-formed code has grown: nothing that stood there has changed, and no edge was made to a
block with a phi. -/
structure Extends (A : Avail) (c : Code) (A' : Avail) (c' : Code) : Prop where
  blocks_le : c.blocks ≤ c'.blocks
  values_le : c.values ≤ c'.values
  avail_eq : ∀ b : Block, b.id < c.blocks → A' b = A b
  head_le : c.head <+: c'.head
  code_le : ∀ b, c.code b <+: c'.code b
  inst_eq : ∀ v : Value, v.id < c.values → c'.inst v = c.inst v
  home_eq : ∀ v : Value, v.id < c.values → c'.home v = c.home v
  preds_eq : ∀ b, ∀ v ∈ c.code b, c.instIs Inst.isPhi v = true → c'.preds b = c.preds b

namespace Extends

variable {A A' A'' : Avail} {c c' c'' : Code}

lemma refl (A : Avail) (c : Code) : Extends A c A c :=
  ⟨le_rfl, le_rfl, fun _ _ => rfl, List.prefix_rfl, fun _ => List.prefix_rfl, fun _ _ => rfl,
    fun _ _ => rfl, fun _ _ _ _ => rfl⟩

lemma instIs_eq (h : Extends A c A' c') (hv : v.id < c.values)
    (property : Inst → Bool) : c'.instIs property v = c.instIs property v := by
  rw [Code.instIs, Code.instIs, h.inst_eq v hv]

lemma usable (h : Extends A c A' c') (hv : Usable c v) : Usable c' v :=
  ⟨hv.1.trans_le h.values_le, (h.instIs_eq hv.1 _).trans hv.2.1, (h.instIs_eq hv.1 _).trans hv.2.2⟩

lemma availableAt (h : Extends A c A' c') (hb : b.id < c.blocks)
    (hv : AvailableAt A c b v) : AvailableAt A' c' b v := by
  refine ⟨?_, h.usable hv.2⟩
  rcases hv.1 with hv | hv | hv
  · exact .inl (h.avail_eq b hb ▸ hv)
  · exact .inr (.inl ((h.code_le b).subset hv))
  · exact .inr (.inr (h.head_le.subset hv))

end Extends

/-- An instruction is well formed, given what stands before and behind it in its block. -/
structure FormedInst (A : Avail) (c : Code) (block : Block) (before : List Value) (inst : Inst)
    (after : List Value) : Prop where
  plain : isHeadInst inst = false
  last : inst.isTerminator = true → after = []
  targets : ∀ t ∈ inst.successors, t ≠ firstBlock ∧ t.id < c.blocks ∧
    ∀ v, A t v → A block v ∨ v ∈ before ∨ v ∈ c.head
  operands : inst.isPhi = false → ∀ w ∈ inst.operands, A block w ∨ w ∈ before ∨ w ∈ c.head
  usable : ∀ w ∈ inst.operands, Usable c w ∨ w ∈ c.head ∧ w ∉ exposed inst
  phi : ∀ ty args, inst = .phi ty args → block ≠ firstBlock ∧ before = [] ∧
    args.length = (c.preds block).length ∧
    ∀ edge ∈ (c.preds block).zip args, edge.1.id < c.blocks ∧ AvailableAt A c edge.1 edge.2

/-- Well-formed code under construction. -/
structure Formed (A : Avail) (c : Code) : Prop where
  nonempty : 0 < c.blocks
  insts : ∀ block before v after, c.code block = before ++ v :: after →
    block.id < c.blocks ∧ c.home v = some block ∧
      ∃ inst, c.inst v = some inst ∧ FormedInst A c block before inst after
  code_nodup : ∀ block, (c.code block).Nodup
  head_nodup : c.head.Nodup
  head_home : ∀ v ∈ c.head, c.home v = some firstBlock
  placed : ∀ v block, c.home v = some block → v ∈ c.code block ∨ block = firstBlock ∧ v ∈ c.head
  homed : ∀ v : Value, v.id < c.values ↔ (c.home v).isSome = true
  head_eq : ∃ slots, c.head = c.params ++ slots ∧
    ∀ v ∈ slots, ∃ ty pinned, c.inst v = some (.alloca ty pinned)
  params_eq : ∀ (i : Nat) v, c.params[i]? = some v → ∃ ty, c.inst v = some (.param ty i)
  edges : ∀ p t, (c.preds t).count p = (c.exits p).count t
  entry_avail : ∀ v, ¬ A firstBlock v
  avail_exists : ∀ b v, A b v → v.id < c.values

namespace FormedInst

variable {A A' : Avail} {c c' : Code} {before after after' : List Value} {inst : Inst}

lemma grow (h : FormedInst A c block before inst after) (hg : Extends A c A' c')
    (hblock : block.id < c.blocks) (hlast : inst.isTerminator = true → after' = [])
    (hpreds : inst.isPhi = true → c'.preds block = c.preds block) :
    FormedInst A' c' block before inst after' where
  plain := h.plain
  last := hlast
  targets t ht := by
    obtain ⟨hne, hlt, havail⟩ := h.targets t ht
    refine ⟨hne, hlt.trans_le hg.blocks_le, fun v hv => ?_⟩
    rw [hg.avail_eq t hlt] at hv
    rw [hg.avail_eq block hblock]
    exact (havail v hv).imp_right (Or.imp_right fun hhead => hg.head_le.subset hhead)
  operands hphi w hw := by
    rw [hg.avail_eq block hblock]
    exact (h.operands hphi w hw).imp_right (Or.imp_right fun hhead => hg.head_le.subset hhead)
  usable w hw := (h.usable w hw).imp hg.usable (And.imp_left fun h => hg.head_le.subset h)
  phi ty args heq := by
    obtain ⟨hne, hbefore, hlen, hedges⟩ := h.phi ty args heq
    rw [hpreds (by rw [heq]; rfl)]
    refine ⟨hne, hbefore, hlen, fun edge hedge => ?_⟩
    obtain ⟨hlt, havail⟩ := hedges edge hedge
    exact ⟨hlt.trans_le hg.blocks_le, hg.availableAt hlt havail⟩

end FormedInst

namespace Formed

variable {A A' : Avail} {c c' : Code}

section

variable (hf : Formed A c)
include hf

lemma inst_of_mem (h : v ∈ c.code block) :
    block.id < c.blocks ∧ c.home v = some block ∧ ∃ before after inst, c.inst v = some inst ∧
      FormedInst A c block before inst after := by
  obtain ⟨before, after, heq⟩ := append_of_mem h
  obtain ⟨hlt, hhome, inst, hinst, hformed⟩ := hf.insts block before v after heq
  exact ⟨hlt, hhome, before, after, inst, hinst, hformed⟩

lemma not_terminator (hopen : ¬ c.Ended block) {before after : List Value}
    (heq : c.code block = before ++ v :: after) {inst : Inst} (hinst : c.inst v = some inst) :
    inst.isTerminator = false := by
  by_contra hterm
  have htrue := Bool.eq_true_of_not_eq_false hterm
  obtain ⟨-, -, inst', hinst', hformed⟩ := hf.insts block before v after heq
  obtain rfl := Option.some.inj (hinst.symm.trans hinst')
  rw [hformed.last htrue] at heq
  exact hopen ⟨v, by rw [heq, getLast?_concat], by rw [Code.instIs, hinst]; exact htrue⟩

lemma exits_eq_nil (hopen : ¬ c.Ended block) : c.exits block = [] := by
  rw [Code.exits]
  cases hlast : (c.code block).getLast? with
  | none => rfl
  | some v =>
    obtain ⟨before, heq⟩ := getLast?_eq_some_iff.mp hlast
    obtain ⟨-, -, inst, hinst, -⟩ := hf.insts block before v [] heq
    rw [Option.bind_some, hinst]
    exact Inst.successors_eq_nil_of_not_isTerminator (hf.not_terminator hopen heq hinst)

lemma lt_of_mem_code (h : v ∈ c.code block) : v.id < c.values := by
  obtain ⟨-, hhome, -⟩ := hf.inst_of_mem h
  exact (hf.homed v).mpr (by rw [hhome]; rfl)

lemma lt_of_mem_head (h : v ∈ c.head) : v.id < c.values :=
  (hf.homed v).mpr (by rw [hf.head_home v h]; rfl)

lemma code_eq_nil (h : c.blocks ≤ block.id) : c.code block = [] := by
  by_contra hne
  obtain ⟨v, hv⟩ := exists_mem_of_ne_nil _ hne
  exact absurd (hf.inst_of_mem hv).1 (by omega)

lemma exit_of_pred (h : p ∈ c.preds t) : t ∈ c.exits p := by
  rw [← count_pos_iff, ← hf.edges p t]
  exact count_pos_iff.2 h

lemma exit_spec (h : t ∈ c.exits p) :
    ∃ before v inst, c.code p = before ++ [v] ∧ c.inst v = some inst ∧ t ∈ inst.successors ∧
      FormedInst A c p before inst [] := by
  rw [Code.exits] at h
  cases hlast : (c.code p).getLast? with
  | none =>
    rw [hlast] at h
    cases h
  | some v =>
    obtain ⟨before, heq⟩ := getLast?_eq_some_iff.mp hlast
    obtain ⟨-, -, inst, hinst, hformed⟩ := hf.insts p before v [] heq
    rw [hlast, Option.bind_some, hinst] at h
    exact ⟨before, v, inst, heq, hinst, h, hformed⟩

lemma exists_of_exit (h : t ∈ c.exits p) : p.id < c.blocks := by
  obtain ⟨before, v, -, heq, -⟩ := hf.exit_spec h
  exact (hf.insts p before v [] heq).1

lemma pred_exists (h : p ∈ c.preds t) : p.id < c.blocks :=
  hf.exists_of_exit (hf.exit_of_pred h)

lemma target_exists (h : t ∈ c.exits p) : t ≠ firstBlock ∧ t.id < c.blocks := by
  obtain ⟨_, _, _, _, _, ht, hformed⟩ := hf.exit_spec h
  exact ⟨(hformed.targets t ht).1, (hformed.targets t ht).2.1⟩

lemma preds_first : c.preds firstBlock = [] := by
  by_contra hne
  obtain ⟨p, hp⟩ := exists_mem_of_ne_nil _ hne
  exact (hf.target_exists (hf.exit_of_pred hp)).1 rfl


lemma head_not_code (h : v ∈ c.head) (block : Block) : v ∉ c.code block := by
  intro hcode
  obtain ⟨_, _, _, _, inst, hinst, hformed⟩ := hf.inst_of_mem hcode
  have hplain := hformed.plain
  obtain ⟨slots, heq, hslots⟩ := hf.head_eq
  rw [heq, mem_append] at h
  rcases h with h | h
  · obtain ⟨i, hi⟩ := List.mem_iff_getElem?.mp h
    obtain ⟨ty, hparam⟩ := hf.params_eq i v hi
    rw [hinst] at hparam
    cases hparam
    cases hplain
  · obtain ⟨ty, pinned, hslot⟩ := hslots v h
    rw [hinst] at hslot
    cases hslot
    cases hplain

lemma lt_of_mem_params (h : v ∈ c.params) : v.id < c.values := by
  obtain ⟨slots, heq, -⟩ := hf.head_eq
  exact hf.lt_of_mem_head (heq ▸ mem_append_left _ h)

lemma head_eq_of_extends (hg : Extends A c A' c') (hhead : c'.head = c.head)
    (hparams : c'.params = c.params) : ∃ slots, c'.head = c'.params ++ slots ∧
      ∀ v ∈ slots, ∃ ty pinned, c'.inst v = some (.alloca ty pinned) := by
  obtain ⟨slots, heq, hslots⟩ := hf.head_eq
  refine ⟨slots, by rw [hhead, hparams, heq], fun v hv => ?_⟩
  obtain ⟨ty, pinned, hinst⟩ := hslots v hv
  have hlt := hf.lt_of_mem_head (heq ▸ mem_append_right _ hv)
  exact ⟨ty, pinned, (hg.inst_eq v hlt).trans hinst⟩

lemma params_eq_of_extends (hg : Extends A c A' c') (hparams : c'.params = c.params) :
    ∀ (i : Nat) v, c'.params[i]? = some v → ∃ ty, c'.inst v = some (.param ty i) := by
  intro i v hv
  rw [hparams] at hv
  obtain ⟨ty, hinst⟩ := hf.params_eq i v hv
  exact ⟨ty, (hg.inst_eq v (hf.lt_of_mem_params (mem_of_getElem? hv))).trans hinst⟩

lemma trans_extends {A'' : Avail} {c'' : Code} (h : Extends A c A' c') (h' : Extends A' c' A'' c'')
    :
    Extends A c A'' c'' where
  blocks_le := h.blocks_le.trans h'.blocks_le
  values_le := h.values_le.trans h'.values_le
  avail_eq b hb := (h'.avail_eq b (hb.trans_le h.blocks_le)).trans (h.avail_eq b hb)
  head_le := h.head_le.trans h'.head_le
  code_le b := (h.code_le b).trans (h'.code_le b)
  inst_eq v hv := (h'.inst_eq v (hv.trans_le h.values_le)).trans (h.inst_eq v hv)
  home_eq v hv := (h'.home_eq v (hv.trans_le h.values_le)).trans (h.home_eq v hv)
  preds_eq b v hv hphi := by
    have hphi' : c'.instIs Inst.isPhi v = true :=
      (h.instIs_eq (hf.lt_of_mem_code hv) _).trans hphi
    exact (h'.preds_eq b v ((h.code_le b).subset hv) hphi').trans (h.preds_eq b v hv hphi)

lemma ended_congr (hg : Extends A c A' c') (hcode : c'.code block = c.code block) :
    c'.Ended block ↔ c.Ended block := by
  unfold Code.Ended
  rw [hcode]
  refine exists_congr fun v => and_congr_right fun hlast => ?_
  rw [hg.instIs_eq (hf.lt_of_mem_code (mem_of_getLast? hlast))]

lemma exits_congr (hcode : c'.code block = c.code block)
    (hinst : ∀ v, v.id < c.values → c'.inst v = c.inst v) : c'.exits block = c.exits block := by
  unfold Code.exits
  rw [hcode]
  cases hlast : (c.code block).getLast? with
  | none => rfl
  | some v =>
    rw [Option.bind_some, Option.bind_some]
    rw [hinst v (hf.lt_of_mem_code (mem_of_getLast? hlast))]

end

/-! ### Adding a block -/

lemma extends_addBlock (c : Code) (A : Avail) (known : Value → Prop) :
    Extends A c (Function.update A ⟨c.blocks⟩ known) c.addBlock where
  blocks_le := Nat.le_succ _
  values_le := le_rfl
  avail_eq b hb := Function.update_of_ne (fun heq => by rw [heq] at hb; exact lt_irrefl _ hb) ..
  head_le := List.prefix_rfl
  code_le _ := List.prefix_rfl
  inst_eq _ _ := rfl
  home_eq _ _ := rfl
  preds_eq _ _ _ _ := rfl

lemma addBlock (hf : Formed A c) {known : Value → Prop} (hknown : ∀ v, known v → v.id < c.values) :
    Formed (Function.update A ⟨c.blocks⟩ known) c.addBlock := by
  have hg := extends_addBlock c A known
  exact
    { hf with
      nonempty := Nat.succ_pos _
      insts := fun block before v after heq => by
        obtain ⟨hlt, hhome, inst, hinst, hformed⟩ := hf.insts block before v after heq
        exact ⟨hlt.trans (Nat.lt_succ_self _), hhome, inst, hinst,
          hformed.grow hg hlt hformed.last fun _ => rfl⟩
      edges := hf.edges
      entry_avail := fun v => by
        rw [hg.avail_eq firstBlock hf.nonempty]
        exact hf.entry_avail v
      avail_exists := fun b v hv => by
        by_cases hb : b = ⟨c.blocks⟩
        · subst hb
          rw [Function.update_self] at hv
          exact hknown v hv
        · rw [Function.update_of_ne hb] at hv
          exact hf.avail_exists b v hv }

/-! ### Adding a value -/

lemma inst_addValue (h : v.id < c.values) (inst : Inst) (home : Block) :
    (c.addValue inst home).inst v = c.inst v :=
  Function.update_of_ne (Code.ne_next h) ..

lemma inst_addValue_next (c : Code) (inst : Inst) (home : Block) :
    (c.addValue inst home).inst c.next = some inst :=
  Function.update_self ..

lemma home_addValue (h : v.id < c.values) (inst : Inst) (home : Block) :
    (c.addValue inst home).home v = c.home v :=
  Function.update_of_ne (Code.ne_next h) ..

lemma home_addValue_next (c : Code) (inst : Inst) (home : Block) :
    (c.addValue inst home).home c.next = some home :=
  Function.update_self ..

lemma home_addValue_cases {home : Block}
    (h : Function.update c.home c.next (some home) v = some b) :
    v = c.next ∧ b = home ∨ c.home v = some b := by
  by_cases hv : v = c.next
  · subst hv
    rw [Function.update_self] at h
    exact .inl ⟨rfl, (Option.some.inj h).symm⟩
  · exact .inr ((Function.update_of_ne hv ..).symm.trans h)

lemma homed_addValue (hf : Formed A c) (inst : Inst) (home : Block) (v : Value) :
    v.id < c.values + 1 ↔ ((c.addValue inst home).home v).isSome = true := by
  by_cases hv : v = c.next
  · subst hv
    simp [Code.addValue, Code.next]
  · rw [Code.addValue]
    simp only [Function.update_of_ne hv]
    rw [← hf.homed v]
    have : v.id ≠ c.values := fun h => hv (Value.ext h)
    omega

lemma concat_eq_split {α : Type} {l before after : List α} {x v : α}
    (h : l ++ [x] = before ++ v :: after) :
    (after = [] ∧ v = x ∧ before = l) ∨ ∃ rest, after = rest ++ [x] ∧ l = before ++ v :: rest := by
  rcases eq_nil_or_concat after with rfl | ⟨rest, y, rfl⟩
  · obtain ⟨hl, hx⟩ := append_inj' h rfl
    exact .inl ⟨rfl, (List.cons.inj hx).1.symm, hl.symm⟩
  · rw [concat_eq_append, ← cons_append, ← append_assoc] at h
    obtain ⟨hl, hx⟩ := append_inj' h rfl
    obtain rfl := (List.cons.inj hx).1
    exact .inr ⟨rest, concat_eq_append, hl⟩

section Append

variable {inst : Inst}

lemma code_append_self (c : Code) (block : Block) (inst : Inst) :
    (c.append block inst).code block = c.code block ++ [c.next] :=
  Function.update_self ..

lemma code_append_of_ne (h : b ≠ block) : (c.append block inst).code b = c.code b :=
  Function.update_of_ne h ..

lemma extends_append (A : Avail)
    (hphis : ∀ t ∈ inst.successors, ∀ v ∈ c.code t, c.instIs Inst.isPhi v = false) :
    Extends A c A (c.append block inst) where
  blocks_le := le_rfl
  values_le := Nat.le_succ _
  avail_eq _ _ := rfl
  head_le := List.prefix_rfl
  code_le b := by
    by_cases hb : b = block
    · subst hb
      rw [code_append_self]
      exact List.prefix_append ..
    · rw [code_append_of_ne hb]
  inst_eq _ hv := inst_addValue hv inst block
  home_eq _ hv := home_addValue hv inst block
  preds_eq b v hv hphi := by
    have hcount : inst.successors.count b = 0 := by
      rw [count_eq_zero]
      intro hmem
      rw [hphis b hmem v hv] at hphi
      cases hphi
    simp [Code.append, hcount]

lemma exits_append (hf : Formed A c) (p : Block) :
    (c.append block inst).exits p = if p = block then inst.successors else c.exits p := by
  split
  next heq =>
    subst heq
    rw [Code.exits, code_append_self, getLast?_concat, Option.bind_some]
    rw [show (c.append p inst).inst c.next = some inst from inst_addValue_next c inst p]
    rfl
  next hne =>
    exact hf.exits_congr (code_append_of_ne hne) fun _ hv => inst_addValue hv inst block

/-- An instruction is appended to a block that has not been ended. What it uses is available, and
so is what its targets rely on. -/
lemma append (hf : Formed A c) (hblock : block.id < c.blocks) (hopen : ¬ c.Ended block)
    (hphi : inst.isPhi = false) (hplain : isHeadInst inst = false)
    (hoperands : ∀ w ∈ inst.operands, OperandAt A c block inst w)
    (htargets : ∀ t ∈ inst.successors, t ≠ firstBlock ∧ t.id < c.blocks ∧
      (∀ v ∈ c.code t, c.instIs Inst.isPhi v = false) ∧ ∀ v, A t v → AvailableAt A c block v) :
    Formed A (c.append block inst) := by
  have hg : Extends A c A (c.append block inst) := extends_append A fun t ht => (htargets t ht).2.2.1
  have hold {b : Block} {before : List Value} {v : Value} {after after' : List Value}
      (heq : c.code b = before ++ v :: after)
      (hlast : ∀ inst', c.inst v = some inst' → inst'.isTerminator = true → after' = []) :
      b.id < c.blocks ∧ (c.append block inst).home v = some b ∧
        ∃ inst', (c.append block inst).inst v = some inst' ∧
          FormedInst A (c.append block inst) b before inst' after' := by
    obtain ⟨hlt, hhome, inst', hinst', hformed⟩ := hf.insts b before v after heq
    have hmem : v ∈ c.code b := heq ▸ mem_append_right _ mem_cons_self
    have hv := hf.lt_of_mem_code hmem
    refine ⟨hlt, (hg.home_eq v hv).trans hhome, inst', (hg.inst_eq v hv).trans hinst',
      hformed.grow hg hlt (hlast inst' hinst') fun hphi' => ?_⟩
    exact hg.preds_eq b v hmem (by rw [Code.instIs, hinst']; exact hphi')
  exact
    { nonempty := hf.nonempty
      insts := fun b before v after heq => by
        by_cases hb : b = block
        · subst hb
          rw [code_append_self] at heq
          rcases concat_eq_split heq with ⟨rfl, rfl, rfl⟩ | ⟨rest, rfl, hcode⟩
          · refine ⟨hblock, home_addValue_next c inst b, inst, inst_addValue_next c inst b, hplain,
              fun _ => rfl, fun t ht => ?_, fun _ w hw => ?_, fun w hw => ?_, fun ty args heq => ?_⟩
            · obtain ⟨hne, hlt, -, havail⟩ := htargets t ht
              exact ⟨hne, hlt, fun v hv => (havail v hv).1⟩
            · exact (hoperands w hw).elim And.left fun h => .inr (.inr h.1)
            · exact (hoperands w hw).imp_left fun h => hg.usable h.2
            · rw [heq] at hphi
              cases hphi
          · refine hold hcode fun inst' hinst' hterm => ?_
            rw [hf.not_terminator hopen hcode hinst'] at hterm
            cases hterm
        · rw [code_append_of_ne hb] at heq
          refine hold heq fun inst' hinst' hterm => ?_
          obtain ⟨-, -, inst'', hinst'', hformed⟩ := hf.insts b before v after heq
          obtain rfl := Option.some.inj (hinst'.symm.trans hinst'')
          exact hformed.last hterm
      code_nodup := fun b => by
        by_cases hb : b = block
        · subst hb
          rw [code_append_self]
          refine nodup_append.mpr ⟨hf.code_nodup b, nodup_singleton _, ?_⟩
          rintro v hv w hw rfl
          exact Code.ne_next (hf.lt_of_mem_code hv) (mem_singleton.mp hw)
        · rw [code_append_of_ne hb]
          exact hf.code_nodup b
      head_nodup := hf.head_nodup
      head_home := fun v hv => (hg.home_eq v (hf.lt_of_mem_head hv)).trans (hf.head_home v hv)
      placed := fun v b hhome => by
        rcases home_addValue_cases hhome with ⟨rfl, rfl⟩ | hhome
        · rw [code_append_self]
          exact .inl (mem_append_right _ (mem_singleton_self _))
        · exact (hf.placed v b hhome).imp_left fun h => (hg.code_le b).subset h
      homed := hf.homed_addValue inst block
      head_eq := hf.head_eq_of_extends hg rfl rfl
      params_eq := hf.params_eq_of_extends hg rfl
      edges := fun p t => by
        rw [hf.exits_append, Code.append, count_append, hf.edges p t, count_replicate]
        by_cases hp : p = block
        · subst hp
          simp [hf.exits_eq_nil hopen]
        · simp [hp, Ne.symm hp]
      entry_avail := hf.entry_avail
      avail_exists := fun b v hv => (hf.avail_exists b v hv).trans (Nat.lt_succ_self _) }

end Append

/-! ### Adding to the head -/

section Head

variable {inst : Inst} {slots : List Value}

lemma extends_addHead (A : Avail) (c : Code) (inst : Inst) (params : List Value) :
    Extends A c A (c.addHead inst params) where
  blocks_le := le_rfl
  values_le := Nat.le_succ _
  avail_eq _ _ := rfl
  head_le := List.prefix_append ..
  code_le _ := List.prefix_rfl
  inst_eq _ hv := inst_addValue hv inst firstBlock
  home_eq _ hv := home_addValue hv inst firstBlock
  preds_eq _ _ _ _ := rfl

lemma exits_addHead (hf : Formed A c) (params : List Value) (p : Block) :
    (c.addHead inst params).exits p = c.exits p :=
  hf.exits_congr rfl fun _ hv => inst_addValue hv inst firstBlock

lemma addHead (hf : Formed A c) {params : List Value} (hhead : c.head ++ [c.next] = params ++ slots)
    (hslots : ∀ v ∈ slots, ∃ ty pinned, (c.addValue inst firstBlock).inst v = some (.alloca ty pinned))
    (hparams : ∀ (i : Nat) v, params[i]? = some v →
      ∃ ty, (c.addValue inst firstBlock).inst v = some (.param ty i)) :
    Formed A (c.addHead inst params) := by
  have hg := extends_addHead A c inst params
  exact
    { nonempty := hf.nonempty
      insts := fun b before v after heq => by
        obtain ⟨hlt, hhome, inst', hinst', hformed⟩ := hf.insts b before v after heq
        have hv := hf.lt_of_mem_code (heq ▸ mem_append_right _ mem_cons_self)
        exact ⟨hlt, (hg.home_eq v hv).trans hhome, inst', (hg.inst_eq v hv).trans hinst',
          hformed.grow hg hlt hformed.last fun _ => rfl⟩
      code_nodup := hf.code_nodup
      head_nodup := by
        refine nodup_append.mpr ⟨hf.head_nodup, nodup_singleton _, ?_⟩
        rintro v hv w hw rfl
        exact Code.ne_next (hf.lt_of_mem_head hv) (mem_singleton.mp hw)
      head_home := fun v hv => by
        rcases mem_append.mp hv with hv | hv
        · exact (hg.home_eq v (hf.lt_of_mem_head hv)).trans (hf.head_home v hv)
        · rw [mem_singleton.mp hv]
          exact home_addValue_next c inst firstBlock
      placed := fun v b hhome => by
        rcases home_addValue_cases hhome with ⟨rfl, rfl⟩ | hhome
        · exact .inr ⟨rfl, mem_append_right _ (mem_singleton_self _)⟩
        · exact (hf.placed v b hhome).imp_right fun ⟨hb, h⟩ => ⟨hb, mem_append_left _ h⟩
      homed := hf.homed_addValue inst firstBlock
      head_eq := ⟨slots, hhead, hslots⟩
      params_eq := hparams
      edges := fun p t => by
        rw [hf.exits_addHead]
        exact hf.edges p t
      entry_avail := hf.entry_avail
      avail_exists := fun b v hv => (hf.avail_exists b v hv).trans (Nat.lt_succ_self _) }

lemma extends_addSlot (A : Avail) (c : Code) (ty : Ty) (pinned : Bool) :
    Extends A c A (c.addSlot ty pinned) :=
  extends_addHead A c (.alloca ty pinned) c.params

lemma addSlot (hf : Formed A c) (ty : Ty) (pinned : Bool) : Formed A (c.addSlot ty pinned) := by
  obtain ⟨slots, heq, hslots⟩ := hf.head_eq
  have hhead : c.head ++ [c.next] = c.params ++ (slots ++ [c.next]) := by
    rw [heq, append_assoc]
  refine hf.addHead hhead (fun v hv => ?_) fun i v hv => ?_
  · rcases mem_append.mp hv with hv | hv
    · obtain ⟨ty', pinned', hinst⟩ := hslots v hv
      have hlt := hf.lt_of_mem_head (heq ▸ mem_append_right _ hv)
      exact ⟨ty', pinned', (inst_addValue hlt ..).trans hinst⟩
    · rw [mem_singleton.mp hv]
      exact ⟨ty, pinned, inst_addValue_next ..⟩
  · obtain ⟨ty', hinst⟩ := hf.params_eq i v hv
    have hlt := hf.lt_of_mem_head (heq ▸ mem_append_left _ (mem_of_getElem? hv))
    exact ⟨ty', (inst_addValue hlt ..).trans hinst⟩

lemma extends_addParam (A : Avail) (c : Code) (ty : Ty) : Extends A c A (c.addParam ty) :=
  extends_addHead A c (.param ty c.params.length) (c.params ++ [c.next])

lemma addParam (hf : Formed A c) (hhead : c.head = c.params) (ty : Ty) :
    Formed A (c.addParam ty) := by
  have hnew : c.head ++ [c.next] = c.params ++ [c.next] ++ [] := by rw [hhead, append_nil]
  refine hf.addHead hnew (by simp) fun i v hv => ?_
  rw [getElem?_append] at hv
  split at hv
  · obtain ⟨ty', hinst⟩ := hf.params_eq i v hv
    have hlt := hf.lt_of_mem_head (hhead ▸ mem_of_getElem? hv)
    exact ⟨ty', (inst_addValue hlt ..).trans hinst⟩
  · next hle =>
    rw [getElem?_singleton] at hv
    split at hv
    · next hi =>
      obtain rfl : i = c.params.length := by omega
      obtain rfl := Option.some.inj hv
      exact ⟨ty, inst_addValue_next ..⟩
    · cases hv

end Head

/-! ### Adding a phi -/

section Join

variable {target : Block} {ty : Ty} {args : List Value}

lemma code_join_self (c : Code) (target : Block) (ty : Ty) (args : List Value) :
    (c.join target ty args).code target = [c.next] :=
  Function.update_self ..

lemma code_join_of_ne (h : b ≠ target) : (c.join target ty args).code b = c.code b :=
  Function.update_of_ne h ..

lemma extends_join (A : Avail) (hempty : c.code target = []) :
    Extends A c A (c.join target ty args) where
  blocks_le := le_rfl
  values_le := Nat.le_succ _
  avail_eq _ _ := rfl
  head_le := List.prefix_rfl
  code_le b := by
    by_cases hb : b = target
    · subst hb
      rw [hempty]
      exact List.nil_prefix
    · rw [code_join_of_ne hb]
  inst_eq _ hv := inst_addValue hv (.phi ty args) target
  home_eq _ hv := home_addValue hv (.phi ty args) target
  preds_eq _ _ _ _ := rfl

lemma exits_join (hf : Formed A c) (hempty : c.code target = []) (p : Block) :
    (c.join target ty args).exits p = c.exits p := by
  by_cases hp : p = target
  · subst hp
    rw [Code.exits, Code.exits, code_join_self, hempty, getLast?_singleton, Option.bind_some,
      show (c.join p ty args).inst c.next = some (.phi ty args) from inst_addValue_next c _ p]
    rfl
  · exact hf.exits_congr (code_join_of_ne hp) fun _ hv => inst_addValue hv (.phi ty args) target

/-- A phi is put into an empty block, once all edges into the block are made. -/
lemma join (hf : Formed A c) (htarget : target.id < c.blocks) (hne : target ≠ firstBlock)
    (hempty : c.code target = []) (hlen : args.length = (c.preds target).length)
    (hargs : ∀ edge ∈ (c.preds target).zip args, AvailableAt A c edge.1 edge.2) :
    Formed A (c.join target ty args) := by
  have hg : Extends A c A (c.join target ty args) := extends_join A hempty
  exact
    { nonempty := hf.nonempty
      insts := fun b before v after heq => by
        by_cases hb : b = target
        · subst hb
          rw [code_join_self] at heq
          obtain ⟨rfl, rfl, rfl⟩ : before = [] ∧ v = c.next ∧ after = [] := by
            rcases before with _ | ⟨x, before⟩ <;> simp_all
          refine ⟨htarget, home_addValue_next c (.phi ty args) b, _,
            inst_addValue_next c (.phi ty args) b, rfl, nofun, nofun, nofun, fun w hw => ?_,
            fun ty' args' heq => ?_⟩
          · obtain ⟨i, hi⟩ := List.mem_iff_getElem?.mp hw
            have hlt : i < (c.preds b).length := hlen ▸ (List.getElem?_eq_some_iff.mp hi).1
            have hedge : ((c.preds b).get ⟨i, hlt⟩, w) ∈ (c.preds b).zip args :=
              List.mem_iff_getElem?.mpr ⟨i, by
                rw [List.getElem?_zip_eq_some]
                exact ⟨List.getElem?_eq_getElem hlt, hi⟩⟩
            exact .inl (hg.usable (hargs _ hedge).2)
          cases heq
          refine ⟨hne, rfl, hlen, fun edge hedge => ?_⟩
          have hlt := hf.pred_exists (of_mem_zip hedge).1
          exact ⟨hlt, hg.availableAt hlt (hargs edge hedge)⟩
        · rw [code_join_of_ne hb] at heq
          obtain ⟨hlt, hhome, inst', hinst', hformed⟩ := hf.insts b before v after heq
          have hv := hf.lt_of_mem_code (heq ▸ mem_append_right _ mem_cons_self)
          exact ⟨hlt, (hg.home_eq v hv).trans hhome, inst', (hg.inst_eq v hv).trans hinst',
            hformed.grow hg hlt hformed.last fun _ => rfl⟩
      code_nodup := fun b => by
        by_cases hb : b = target
        · subst hb
          rw [code_join_self]
          exact nodup_singleton _
        · rw [code_join_of_ne hb]
          exact hf.code_nodup b
      head_nodup := hf.head_nodup
      head_home := fun v hv => (hg.home_eq v (hf.lt_of_mem_head hv)).trans (hf.head_home v hv)
      placed := fun v b hhome => by
        rcases home_addValue_cases hhome with ⟨rfl, rfl⟩ | hhome
        · rw [code_join_self]
          exact .inl (mem_singleton_self _)
        · exact (hf.placed v b hhome).imp_left fun h => (hg.code_le b).subset h
      homed := hf.homed_addValue (.phi ty args) target
      head_eq := hf.head_eq_of_extends hg rfl rfl
      params_eq := hf.params_eq_of_extends hg rfl
      edges := fun p t => by
        rw [hf.exits_join hempty]
        exact hf.edges p t
      entry_avail := hf.entry_avail
      avail_exists := fun b v hv => (hf.avail_exists b v hv).trans (Nat.lt_succ_self _) }

end Join

end Formed

end SsaLowering.Proofs
