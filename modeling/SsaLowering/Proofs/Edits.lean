import Mathlib
import SsaLowering.Ir.Function

/-!
# Edits of a function

What the elementary edits of a function change, read through its values and blocks, and what a
run of edits over a list of values does.
-/

namespace SsaLowering.Ir

open List

variable {value : Value} {f g : Function} {block : Block}

@[ext] lemma Value.ext {a b : Value} (h : a.id = b.id) : a = b := by
  cases a
  cases b
  exact congrArg _ h

@[ext] lemma Block.ext {a b : Block} (h : a.id = b.id) : a = b := by
  cases a
  cases b
  exact congrArg _ h

namespace Function

variable (function : Function)

@[simp] lemma value?_modifyValue (value other : Value) (change : ValueInfo → ValueInfo) :
    (function.modifyValue value change).value? other =
      if other = value then (function.value? other).map change else function.value? other := by
  unfold modifyValue value?
  rw [Array.getElem?_modify]
  by_cases h : other = value
  · subst h
    simp
  · have hid : value.id ≠ other.id := fun h' => h (Value.ext h'.symm)
    rw [if_neg hid, if_neg h]

@[simp] lemma block?_modifyValue (value : Value) (change : ValueInfo → ValueInfo) (block : Block) :
    (function.modifyValue value change).block? block = function.block? block :=
  rfl

@[simp] lemma value?_modifyBlock (block : Block) (change : BlockInfo → BlockInfo) (value : Value) :
    (function.modifyBlock block change).value? value = function.value? value :=
  rfl

@[simp] lemma block?_modifyBlock (block other : Block) (change : BlockInfo → BlockInfo) :
    (function.modifyBlock block change).block? other =
      if other = block then (function.block? other).map change else function.block? other := by
  unfold modifyBlock block?
  rw [Array.getElem?_modify]
  by_cases h : other = block
  · subst h
    simp
  · have hid : block.id ≠ other.id := fun h' => h (Block.ext h'.symm)
    rw [if_neg hid, if_neg h]

@[simp] lemma value?_addValue (info : ValueInfo) (value : Value) :
    (function.addValue info).2.value? value =
      if value.id = function.values.size then some info else function.value? value := by
  unfold addValue value?
  rw [Array.getElem?_push]

@[simp] lemma block?_addValue (info : ValueInfo) (block : Block) :
    (function.addValue info).2.block? block = function.block? block :=
  rfl

lemma value?_eq_none (value : Value) (h : function.values.size ≤ value.id) :
    function.value? value = none :=
  Array.getElem?_eq_none h

lemma inst?_eq_none (value : Value) (h : function.values.size ≤ value.id) :
    function.inst? value = none := by
  rw [inst?, function.value?_eq_none value h, Option.map_none]

lemma lt_size_of_inst? {function : Function} {inst : Inst}
    (h : function.inst? value = some inst) : value.id < function.values.size := by
  by_contra hge
  rw [function.inst?_eq_none value (by omega)] at h
  cases h

lemma insts_congr (h : f.block? block = g.block? block) : f.insts block = g.insts block := by
  rw [insts, h, insts]

lemma preds_congr (h : f.block? block = g.block? block) : f.preds block = g.preds block := by
  rw [preds, h, preds]

/-- What is in a block behind its phis. -/
def afterPhis (block : Block) : List Value :=
  (function.insts block).drop (function.phis block).length

lemma phis_append_afterPhis (block : Block) :
    function.phis block ++ function.afterPhis block = function.insts block :=
  (List.prefix_iff_eq_append.mp (List.takeWhile_prefix _))

lemma phis_subset (h : value ∈ function.phis block) : value ∈ function.insts block :=
  (List.takeWhile_prefix _).subset h

lemma instIs_of_mem_phis (h : value ∈ function.phis block) :
    function.instIs Inst.isPhi value = true :=
  mem_takeWhile_imp h

lemma instIs_eq_false {kind other : Inst → Bool} (h : function.instIs kind value = true)
    (hkind : ∀ inst, kind inst = true → other inst = false) :
    function.instIs other value = false := by
  rw [instIs] at h ⊢
  cases hi : function.inst? value with
  | none => rfl
  | some inst =>
    rw [hi] at h
    exact hkind inst h

lemma phis_congr (hinsts : f.insts block = g.insts block)
    (h : ∀ v ∈ f.insts block, f.instIs Inst.isPhi v = g.instIs Inst.isPhi v) :
    f.phis block = g.phis block := by
  rw [phis, phis, ← hinsts]
  generalize f.insts block = insts at h
  induction insts with
  | nil => rfl
  | cons v insts ih =>
    rw [takeWhile_cons, takeWhile_cons, h v mem_cons_self,
      ih fun w hw => h w (mem_cons_of_mem _ hw)]

lemma terminator?_isSome_iff : (function.terminator? block).isSome ↔
    ∃ v, (function.insts block).getLast? = some v ∧
      function.instIs Inst.isTerminator v = true := by
  simp only [terminator?, Option.isSome_iff_exists, Option.filter_eq_some_iff]

/-- Only a terminator has successors, so the last instruction alone tells the edges. -/
lemma successors_eq (block : Block) :
    function.successors block =
      (((function.insts block).getLast?.bind function.inst?).map Inst.successors).getD [] := by
  unfold successors terminator? instIs
  cases hv : (function.insts block).getLast? with
  | none => rfl
  | some v =>
    cases hi : function.inst? v with
    | none => simp [Option.filter, hi]
    | some inst =>
      cases ht : inst.isTerminator
      · simp [Option.filter, hi, ht, Inst.successors_eq_nil_of_not_isTerminator ht]
      · simp [Option.filter, hi, ht]

lemma successors_congr
    (hlast : (f.insts block).getLast? = (g.insts block).getLast?)
    (h : ∀ v, (f.insts block).getLast? = some v →
      (f.inst? v).map Inst.successors = (g.inst? v).map Inst.successors) :
    f.successors block = g.successors block := by
  rw [successors_eq, successors_eq, ← hlast]
  cases hv : (f.insts block).getLast? with
  | none => rfl
  | some v => rw [Option.bind_some, Option.bind_some, h v hv]

/-- A run of edits, each value of a list without repetitions changed in its own way. -/
lemma value?_foldl_modifyValue (values : List Value) (hnodup : values.Nodup)
    (change : Value → ValueInfo → ValueInfo) (other : Value) :
    (values.foldl (fun f value => f.modifyValue value (change value)) function).value? other =
      if other ∈ values then (function.value? other).map (change other)
      else function.value? other := by
  induction values generalizing function with
  | nil => simp
  | cons value values ih =>
    obtain ⟨hv, hrest⟩ := nodup_cons.mp hnodup
    rw [foldl_cons, ih _ hrest, value?_modifyValue]
    by_cases heq : other = value
    · subst heq
      simp [hv]
    · simp [heq]

lemma value?_foldl_of_not_mem (values : List Value) (change : Value → ValueInfo → ValueInfo)
    {other : Value} (h : other ∉ values) :
    (values.foldl (fun f value => f.modifyValue value (change value)) function).value? other =
      function.value? other := by
  induction values generalizing function with
  | nil => rfl
  | cons value values ih =>
    rw [mem_cons, not_or] at h
    rw [foldl_cons, ih _ h.2, value?_modifyValue, if_neg h.1]

lemma map_value?_foldl {β : Type} (view : ValueInfo → β) (values : List Value)
    (change : Value → ValueInfo → ValueInfo) (h : ∀ v info, view (change v info) = view info)
    (other : Value) :
    ((values.foldl (fun f value => f.modifyValue value (change value)) function).value? other).map
      view = (function.value? other).map view := by
  induction values generalizing function with
  | nil => rfl
  | cons value values ih =>
    rw [foldl_cons, ih, value?_modifyValue]
    split
    · rw [Option.map_map]
      congr 1
      exact funext (h value)
    · rfl

lemma foldl_modifyValue_frame (values : List Value) (change : Value → ValueInfo → ValueInfo) :
    ∃ changed, values.foldl (fun f value => f.modifyValue value (change value)) function =
      { function with values := changed } ∧ changed.size = function.values.size := by
  induction values generalizing function with
  | nil => exact ⟨function.values, rfl, rfl⟩
  | cons value values ih =>
    obtain ⟨changed, heq, hsize⟩ := ih (function.modifyValue value (change value))
    refine ⟨changed, ?_, ?_⟩
    · rw [foldl_cons, heq]
      rfl
    · rw [hsize]
      exact Array.size_modify

end Function

end SsaLowering.Ir
