import SsaLowering.Ir.Builder
import SsaLowering.Proofs.Edits

/-!
# Building a function

What each step of a builder changes. The entry block has a head, where parameters and slots go, and
every block has its code, where all else goes; a step makes the head longer, or the code of one
block, or adds a block or edges. Nothing that stands in either ever changes.
-/

namespace SsaLowering.Ir.Builder

open List

variable {b : Builder} {block : Block} {v : Value}

/-- The parameters and slots at the head of the entry. -/
def head (b : Builder) : List Value :=
  (b.function.insts firstBlock).take b.entryHead

/-- The instructions of a block behind the head. -/
def code (b : Builder) (block : Block) : List Value :=
  if block = firstBlock then (b.function.insts block).drop b.entryHead
  else b.function.insts block

def header (b : Builder) : String × Ty :=
  (b.function.name, b.function.ret)

def next (b : Builder) : Value :=
  ⟨b.function.values.size⟩

/-- The first block is the entry and holds its head, all blocks are in the layout, and what is
placed exists. -/
structure Rooted (b : Builder) : Prop where
  layout_eq : b.function.layout = (List.range b.function.blocks.size).map Block.mk
  nonempty : 0 < b.function.blocks.size
  head_le : b.entryHead ≤ (b.function.insts firstBlock).length
  known : ∀ block, ∀ v ∈ b.function.insts block, v.id < b.function.values.size
  untagged : b.function.tags = []

lemma Rooted.entry_eq (h : b.Rooted) : b.entry = firstBlock := by
  obtain ⟨n, hn⟩ : ∃ n, b.function.blocks.size = n + 1 := ⟨_, (Nat.succ_pred_eq_of_pos h.nonempty).symm⟩
  rw [entry, Function.entry?, h.layout_eq, hn, range_succ_eq_map]
  rfl

lemma insts_eq (b : Builder) (block : Block) :
    b.function.insts block = (if block = firstBlock then b.head else []) ++ b.code block := by
  unfold head code
  split
  next h => rw [h, take_append_drop]
  next => rfl

lemma mem_insts_of_mem_code (h : v ∈ b.code block) : v ∈ b.function.insts block := by
  rw [insts_eq]
  exact mem_append_right _ h

lemma mem_insts_of_mem_head (h : v ∈ b.head) : v ∈ b.function.insts firstBlock :=
  mem_of_mem_take h

lemma mem_insts_iff :
    v ∈ b.function.insts block ↔ v ∈ b.code block ∨ block = firstBlock ∧ v ∈ b.head := by
  rw [insts_eq, mem_append]
  by_cases h : block = firstBlock <;> simp [h, or_comm]

lemma code_eq_nil (h : b.function.blocks.size ≤ block.id) : b.code block = [] := by
  have hnone : b.function.block? block = none := Array.getElem?_eq_none h
  have hinsts : b.function.insts block = [] := by rw [Function.insts, hnone]; rfl
  rw [insts_eq] at hinsts
  exact (append_eq_nil_iff.1 hinsts).2

/-! ### A new builder -/

section Start

variable (name : String) (ret : Ty) (span : Span) (node : Nat)

lemma block?_start (t : Block) : (start name ret span node).function.block? t =
    if t.id = 0 then some { name := entryName } else none := by
  obtain ⟨_ | i⟩ := t <;> rfl

@[simp] lemma insts_start (t : Block) : (start name ret span node).function.insts t = [] := by
  rw [Function.insts, block?_start]
  split <;> rfl

@[simp] lemma preds_start (t : Block) : (start name ret span node).function.preds t = [] := by
  rw [Function.preds, block?_start]
  split <;> rfl

@[simp] lemma code_start (t : Block) : (start name ret span node).code t = [] := by
  have hparts := (start name ret span node).insts_eq t
  rw [insts_start] at hparts
  exact (append_eq_nil_iff.mp hparts.symm).2

lemma isLive_start (t : Block) : (start name ret span node).isLive t = decide (t = firstBlock) := by
  change (SideTable.set _ firstBlock.id true).get t.id = _
  rw [SideTable.get_set]
  by_cases ht : t = firstBlock
  · simp [ht]
  · have hid : t.id ≠ firstBlock.id := fun h => ht (Block.ext h)
    simp [ht, hid, SideTable.get]

lemma start_rooted : (start name ret span node).Rooted :=
  ⟨rfl, Nat.one_pos, Nat.zero_le _, by simp, rfl⟩

end Start

/-! ### Placing a value -/

lemma insts_place (b : Builder) (inst : Inst) (h : block.id < b.function.blocks.size)
    (position : Nat) (other : Block) :
    (b.place inst block position).2.function.insts other =
      if other = block then (b.function.insts other).insertIdx position b.next
      else b.function.insts other := by
  simp only [place, Function.insts, Function.block?_modifyBlock, Function.block?_addValue]
  split
  next heq =>
    subst heq
    obtain ⟨info, hinfo⟩ : ∃ info, b.function.block? other = some info :=
      ⟨_, Array.getElem?_eq_getElem h⟩
    simp [hinfo, next, Function.addValue]
  next => rfl

lemma preds_place (b : Builder) (inst : Inst) (block : Block) (position : Nat) (other : Block) :
    (b.place inst block position).2.function.preds other = b.function.preds other := by
  simp only [place, Function.preds, Function.block?_modifyBlock, Function.block?_addValue]
  split
  · cases b.function.block? other <;> rfl
  · rfl

lemma value?_place (b : Builder) (inst : Inst) (block : Block) (position : Nat) (v : Value) :
    (b.place inst block position).2.function.value? v =
      if v = b.next then some ⟨inst, some block, b.span, b.node⟩ else b.function.value? v := by
  simp only [place, Function.value?_modifyBlock, Function.value?_addValue, next, Value.ext_iff]

lemma length_insts_place (b : Builder) (inst : Inst) {other : Block}
    (h : block.id < b.function.blocks.size) (position : Nat) :
    (b.function.insts other).length ≤
      ((b.place inst block position).2.function.insts other).length := by
  rw [b.insts_place inst h]
  split
  · exact length_le_length_insertIdx
  · exact le_rfl

lemma Rooted.place (hb : b.Rooted) (inst : Inst) (h : block.id < b.function.blocks.size)
    (position : Nat) : (b.place inst block position).2.Rooted := by
  have hsize : (b.place inst block position).2.function.blocks.size = b.function.blocks.size :=
    Array.size_modify ..
  have hvalues : (b.place inst block position).2.function.values.size =
      b.function.values.size + 1 :=
    Array.size_push ..
  exact
    { layout_eq := by rw [hsize]; exact hb.layout_eq
      nonempty := by rw [hsize]; exact hb.nonempty
      head_le := hb.head_le.trans (b.length_insts_place inst h position)
      known := fun p v hv => by
        rw [b.insts_place inst h] at hv
        rw [hvalues]
        split at hv
        · rcases eq_or_mem_of_mem_insertIdx hv with rfl | hv
          · exact Nat.lt_succ_self _
          · exact (hb.known p v hv).trans (Nat.lt_succ_self _)
        · exact (hb.known p v hv).trans (Nat.lt_succ_self _)
      untagged := hb.untagged }

/-- A value went to the end of the code of the cursor, with its edges. -/
structure Appended (b : Builder) (inst : Inst) (b' : Builder) : Prop where
  code_eq : ∀ block, b'.code block =
    if block = b.current then b.code block ++ [b.next] else b.code block
  head_eq : b'.head = b.head
  value_eq : ∀ v, b'.function.value? v =
    if v = b.next then some ⟨inst, some b.current, b.span, b.node⟩ else b.function.value? v
  preds_eq : ∀ t, b'.function.preds t =
    b.function.preds t ++ List.replicate (inst.successors.count t) b.current
  live_eq : ∀ t, b'.isLive t = (b.isLive t || (decide (t ∈ inst.successors) && b.isReachable))
  blocks_size : b'.function.blocks.size = b.function.blocks.size
  values_size : b'.function.values.size = b.function.values.size + 1
  layout_eq : b'.function.layout = b.function.layout
  params_eq : b'.function.params = b.function.params
  header_eq : b'.header = b.header
  current_eq : b'.current = b.current
  rooted : b'.Rooted

/-- Edges from a block were recorded at their targets, with their marks. -/
structure Edged (b : Builder) (source : Block) (targets : List Block) (b' : Builder) : Prop where
  insts_eq : ∀ block, b'.function.insts block = b.function.insts block
  value_eq : ∀ v, b'.function.value? v = b.function.value? v
  preds_eq : ∀ t, b'.function.preds t =
    b.function.preds t ++ List.replicate (targets.count t) source
  live_eq : ∀ t, b'.isLive t = (b.isLive t || (decide (t ∈ targets) && b.isLive source))
  blocks_size : b'.function.blocks.size = b.function.blocks.size
  values_size : b'.function.values.size = b.function.values.size
  layout_eq : b'.function.layout = b.function.layout
  params_eq : b'.function.params = b.function.params
  header_eq : b'.header = b.header
  current_eq : b'.current = b.current
  entryHead_eq : b'.entryHead = b.entryHead
  tags_eq : b'.function.tags = b.function.tags

lemma addEdge_edged (b : Builder) (source : Block) {target : Block}
    (h : target.id < b.function.blocks.size) :
    Edged b source [target] (b.addEdge source target) where
  insts_eq block := by
    simp only [addEdge, Function.insts, Function.block?_modifyBlock]
    split
    · cases b.function.block? block <;> rfl
    · rfl
  value_eq _ := rfl
  preds_eq t := by
    simp only [addEdge, Function.preds, Function.block?_modifyBlock]
    split
    next heq =>
      subst heq
      obtain ⟨info, hinfo⟩ : ∃ info, b.function.block? t = some info :=
        ⟨_, Array.getElem?_eq_getElem h⟩
      simp [hinfo]
    next hne => simp [Ne.symm hne]
  live_eq t := by
    change (if b.isLive source then b.live.set target.id true else b.live).get t.id = _
    by_cases hlive : b.isLive source = true
    · rw [if_pos hlive, SideTable.get_set, hlive]
      by_cases ht : t = target
      · simp [ht]
      · have hid : t.id ≠ target.id := fun h => ht (Block.ext h)
        simp [ht, hid, isLive]
    · rw [if_neg hlive, Bool.eq_false_of_not_eq_true hlive, Bool.and_false, Bool.or_false]
      rfl
  blocks_size := Array.size_modify ..
  values_size := rfl
  layout_eq := rfl
  params_eq := rfl
  header_eq := rfl
  current_eq := rfl
  entryHead_eq := rfl
  tags_eq := rfl

lemma foldl_addEdge_edged (b : Builder) (source : Block) (targets : List Block)
    (h : ∀ t ∈ targets, t.id < b.function.blocks.size) :
    Edged b source targets (targets.foldl (fun built t => built.addEdge source t) b) := by
  induction targets generalizing b with
  | nil => exact ⟨by simp, by simp, by simp, by simp, rfl, rfl, rfl, rfl, rfl, rfl, rfl, rfl⟩
  | cons t targets ih =>
    have h1 := b.addEdge_edged source (h t (mem_cons_self ..))
    have h2 := ih (b.addEdge source t) fun u hu => by
      rw [h1.blocks_size]
      exact h u (mem_cons_of_mem _ hu)
    exact
      { insts_eq := fun block => (h2.insts_eq block).trans (h1.insts_eq block)
        value_eq := fun v => (h2.value_eq v).trans (h1.value_eq v)
        preds_eq := fun u => by
          rw [foldl_cons, h2.preds_eq, h1.preds_eq, append_assoc,
            ← replicate_add, ← count_append, singleton_append]
        live_eq := fun u => by
          rw [foldl_cons, h2.live_eq, h1.live_eq, h1.live_eq]
          cases b.isLive source <;> simp [Bool.or_assoc]
        blocks_size := h2.blocks_size.trans h1.blocks_size
        values_size := h2.values_size.trans h1.values_size
        layout_eq := h2.layout_eq.trans h1.layout_eq
        params_eq := h2.params_eq.trans h1.params_eq
        header_eq := h2.header_eq.trans h1.header_eq
        current_eq := h2.current_eq.trans h1.current_eq
        entryHead_eq := h2.entryHead_eq.trans h1.entryHead_eq
        tags_eq := h2.tags_eq.trans h1.tags_eq }

/-- Appending succeeds at a block that has not been ended, if the targets exist. -/
lemma append_appended (hb : b.Rooted) {inst : Inst}
    (hcurrent : b.current.id < b.function.blocks.size)
    (htargets : ∀ t ∈ inst.successors, t.id < b.function.blocks.size)
    (hopen : b.isTerminated = false) :
    ∃ b', b.append inst = .ok (b.next, b') ∧ Appended b inst b' := by
  have hrange : (!b.function.blocks.holds b.current.id ||
      !inst.successors.all fun t => b.function.blocks.holds t.id) = false := by
    simp only [Arena.holds, Bool.or_eq_false_iff, Bool.not_eq_false', decide_eq_true_eq,
      all_eq_true]
    exact ⟨hcurrent, htargets⟩
  let placed := (b.place inst b.current (b.function.insts b.current).length).2
  have hsize : placed.function.blocks.size = b.function.blocks.size := Array.size_modify ..
  have hvalues : placed.function.values.size = b.function.values.size + 1 := Array.size_push ..
  have hedged := placed.foldl_addEdge_edged b.current inst.successors fun t ht => by
    rw [hsize]
    exact htargets t ht
  have hinsts (block : Block) : placed.function.insts block =
      if block = b.current then b.function.insts block ++ [b.next] else b.function.insts block := by
    rw [b.insts_place inst hcurrent]
    split
    next heq =>
      subst heq
      simp
    next => rfl
  refine ⟨inst.successors.foldl (fun built t => built.addEdge b.current t) placed, ?_, ?_⟩
  · rw [append, if_neg (by rw [hrange]; simp), if_neg (by rw [hopen]; simp)]
    rfl
  have hplaced : placed.Rooted := hb.place inst hcurrent _
  exact
    { code_eq := fun block => by
        simp only [code, hedged.insts_eq, hedged.entryHead_eq, hinsts]
        by_cases hfirst : block = firstBlock
        · subst hfirst
          simp only [if_true]
          split
          · exact drop_append_of_le_length hb.head_le
          · rfl
        · simp only [if_neg hfirst]
      head_eq := by
        simp only [head, hedged.insts_eq, hedged.entryHead_eq, hinsts]
        split
        · exact take_append_of_le_length hb.head_le
        · rfl
      value_eq := fun v => (hedged.value_eq v).trans (b.value?_place ..)
      preds_eq := fun t => by rw [hedged.preds_eq, b.preds_place]
      live_eq := fun t => hedged.live_eq t
      blocks_size := hedged.blocks_size.trans hsize
      values_size := hedged.values_size.trans hvalues
      layout_eq := hedged.layout_eq
      params_eq := hedged.params_eq
      header_eq := hedged.header_eq
      current_eq := hedged.current_eq
      rooted :=
        { layout_eq := by rw [hedged.layout_eq, hedged.blocks_size]; exact hplaced.layout_eq
          nonempty := by rw [hedged.blocks_size]; exact hplaced.nonempty
          head_le := by rw [hedged.entryHead_eq, hedged.insts_eq]; exact hplaced.head_le
          known := fun block v hv => by
            rw [hedged.insts_eq] at hv
            rw [hedged.values_size]
            exact hplaced.known block v hv
          untagged := hedged.tags_eq.trans hb.untagged } }

lemma appended_of_append {b' : Builder} (hb : b.Rooted) {inst : Inst}
    (h : b.append inst = .ok (v, b')) :
    v = b.next ∧ b.isTerminated = false ∧ Appended b inst b' := by
  have hrun := h
  rw [append] at h
  split at h
  · cases h
  · next hrange =>
    split at h
    · cases h
    · next hopen =>
      simp only [Bool.or_eq_true, Bool.not_eq_true', not_or, Bool.not_eq_false, all_eq_true,
        Arena.holds, decide_eq_true_eq] at hrange
      have hopen := Bool.eq_false_of_not_eq_true hopen
      obtain ⟨b1, hrun1, happended⟩ := append_appended hb hrange.1 hrange.2 hopen
      rw [hrun1] at hrun
      cases hrun
      exact ⟨rfl, hopen, happended⟩

/-! ### Adding blocks, parameters, slots and phis -/

/-- A block was created and nothing else has changed. -/
structure Created (b b' : Builder) : Prop where
  code_eq : ∀ block, b'.code block = b.code block
  head_eq : b'.head = b.head
  value_eq : ∀ v, b'.function.value? v = b.function.value? v
  preds_eq : ∀ t, b'.function.preds t = b.function.preds t
  live_eq : ∀ t, b'.isLive t = b.isLive t
  blocks_size : b'.function.blocks.size = b.function.blocks.size + 1
  values_size : b'.function.values.size = b.function.values.size
  params_eq : b'.function.params = b.function.params
  header_eq : b'.header = b.header
  current_eq : b'.current = b.current
  rooted : b'.Rooted

lemma createBlock_created (hb : b.Rooted) (name : String) :
    (b.createBlock name).1 = ⟨b.function.blocks.size⟩ ∧ Created b (b.createBlock name).2 := by
  have hblock (block : Block) : (b.createBlock name).2.function.block? block =
      if block.id = b.function.blocks.size then some { name } else b.function.block? block :=
    Array.getElem?_push
  have hnone {block : Block} (h : block.id = b.function.blocks.size) :
      b.function.block? block = none :=
    Array.getElem?_eq_none h.ge
  have hinsts (block : Block) :
      (b.createBlock name).2.function.insts block = b.function.insts block := by
    simp only [Function.insts, hblock]
    split
    next heq => simp [hnone heq]
    next => rfl
  have hsize : (b.createBlock name).2.function.blocks.size = b.function.blocks.size + 1 :=
    Array.size_push ..
  refine ⟨rfl, ?_⟩
  exact
    { code_eq := fun block => by simp only [code, hinsts]; rfl
      head_eq := by simp only [head, hinsts]; rfl
      value_eq := fun _ => rfl
      preds_eq := fun t => by
        simp only [Function.preds, hblock]
        split
        next heq => simp [hnone heq]
        next => rfl
      live_eq := fun _ => rfl
      blocks_size := hsize
      values_size := rfl
      params_eq := rfl
      header_eq := rfl
      current_eq := rfl
      rooted :=
        { layout_eq := by
            rw [hsize, range_succ, map_append, ← hb.layout_eq]
            rfl
          nonempty := by rw [hsize]; exact Nat.succ_pos _
          head_le := by rw [hinsts]; exact hb.head_le
          known := fun block v hv => hb.known block v (hinsts block ▸ hv)
          untagged := hb.untagged } }

lemma insertIdx_eq_append {α : Type} {l : List α} {i : Nat} (h : i ≤ l.length) (a : α) :
    l.insertIdx i a = (l.take i ++ [a]) ++ l.drop i := by
  induction i generalizing l with
  | zero => rfl
  | succ i ih =>
    cases l with
    | nil => simp at h
    | cons x l => simp [ih (Nat.le_of_succ_le_succ h)]

/-- A value was added to the head of the entry. -/
structure HeadLonger (b : Builder) (inst : Inst) (b' : Builder) : Prop where
  code_eq : ∀ block, b'.code block = b.code block
  head_eq : b'.head = b.head ++ [b.next]
  value_eq : ∀ v, b'.function.value? v =
    if v = b.next then some ⟨inst, some firstBlock, b.span, b.node⟩ else b.function.value? v
  preds_eq : ∀ t, b'.function.preds t = b.function.preds t
  live_eq : ∀ t, b'.isLive t = b.isLive t
  blocks_size : b'.function.blocks.size = b.function.blocks.size
  values_size : b'.function.values.size = b.function.values.size + 1
  header_eq : b'.header = b.header
  current_eq : b'.current = b.current
  rooted : b'.Rooted

lemma placeInEntry_headLonger (hb : b.Rooted) (inst : Inst) :
    (b.placeInEntry inst).1 = b.next ∧ HeadLonger b inst (b.placeInEntry inst).2 ∧
      (b.placeInEntry inst).2.function.params = b.function.params := by
  have hinsts (block : Block) : (b.placeInEntry inst).2.function.insts block =
      if block = firstBlock then (b.function.insts block).insertIdx b.entryHead b.next
      else b.function.insts block := by
    have := @insts_place firstBlock b inst hb.nonempty b.entryHead block
    simpa only [placeInEntry, hb.entry_eq] using this
  have hsize : (b.placeInEntry inst).2.function.blocks.size = b.function.blocks.size :=
    Array.size_modify ..
  have hvalues : (b.placeInEntry inst).2.function.values.size = b.function.values.size + 1 :=
    Array.size_push ..
  have hhead : (b.placeInEntry inst).2.entryHead = b.entryHead + 1 := rfl
  have hsplit : (b.function.insts firstBlock).insertIdx b.entryHead b.next =
      (b.head ++ [b.next]) ++ (b.function.insts firstBlock).drop b.entryHead :=
    insertIdx_eq_append hb.head_le _
  have hlength : (b.head ++ [b.next]).length = b.entryHead + 1 := by
    simp [head, hb.head_le]
  have hplaced := hb.place inst (show b.entry.id < _ from hb.entry_eq ▸ hb.nonempty) b.entryHead
  refine ⟨rfl, ?_, rfl⟩
  exact
    { code_eq := fun block => by
        simp only [code, hinsts, hhead]
        by_cases hfirst : block = firstBlock
        · subst hfirst
          simp only [if_true]
          rw [hsplit, ← hlength, drop_left]
        · simp only [if_neg hfirst]
      head_eq := by
        simp only [head, hinsts, hhead, if_true]
        rw [hsplit, ← hlength, take_left]
        rfl
      value_eq := fun v => by
        have := b.value?_place inst firstBlock b.entryHead v
        simpa only [placeInEntry, hb.entry_eq] using this
      preds_eq := fun t => b.preds_place ..
      live_eq := fun _ => rfl
      blocks_size := hsize
      values_size := hvalues
      header_eq := rfl
      current_eq := rfl
      rooted :=
        { layout_eq := hplaced.layout_eq
          nonempty := hplaced.nonempty
          head_le := by
            rw [hhead, hinsts, if_pos rfl, hsplit, length_append, hlength]
            exact Nat.le_add_right ..
          known := hplaced.known
          untagged := hplaced.untagged } }

lemma param_headLonger (hb : b.Rooted) (ty : Ty) :
    (b.param ty).1 = b.next ∧ HeadLonger b (.param ty b.function.params.length) (b.param ty).2 ∧
      (b.param ty).2.function.params = b.function.params ++ [b.next] := by
  obtain ⟨-, hlonger, -⟩ := placeInEntry_headLonger hb (.param ty b.function.params.length)
  have hrooted := hlonger.rooted
  refine ⟨rfl, ?_, ?_⟩
  · exact
      { code_eq := hlonger.code_eq
        head_eq := hlonger.head_eq
        value_eq := hlonger.value_eq
        preds_eq := hlonger.preds_eq
        live_eq := hlonger.live_eq
        blocks_size := hlonger.blocks_size
        values_size := hlonger.values_size
        header_eq := hlonger.header_eq
        current_eq := hlonger.current_eq
        rooted := ⟨hrooted.layout_eq, hrooted.nonempty, hrooted.head_le, hrooted.known,
          hrooted.untagged⟩ }
  · rfl

/-- A phi was put into an empty block. -/
structure Joined (b : Builder) (target : Block) (ty : Ty) (args : List Value) (b' : Builder) :
    Prop where
  code_eq : ∀ block, b'.code block = if block = target then [b.next] else b.code block
  head_eq : b'.head = b.head
  value_eq : ∀ v, b'.function.value? v =
    if v = b.next then some ⟨.phi ty args, some target, b.span, b.node⟩ else b.function.value? v
  preds_eq : ∀ t, b'.function.preds t = b.function.preds t
  live_eq : ∀ t, b'.isLive t = b.isLive t
  blocks_size : b'.function.blocks.size = b.function.blocks.size
  values_size : b'.function.values.size = b.function.values.size + 1
  params_eq : b'.function.params = b.function.params
  header_eq : b'.header = b.header
  current_eq : b'.current = b.current
  rooted : b'.Rooted

lemma phi_joined (hb : b.Rooted) {target : Block} (ty : Ty) (args : List Value)
    (htarget : target.id < b.function.blocks.size) (hne : target ≠ firstBlock)
    (hempty : b.code target = []) :
    ∃ b', b.phi target ty args = .ok (b.next, b') ∧ Joined b target ty args b' := by
  have hnone : b.function.insts target = [] := by rwa [code, if_neg hne] at hempty
  have hinsts (block : Block) :
      (b.place (.phi ty args) target (b.function.phis target).length).2.function.insts block =
        if block = target then [b.next] else b.function.insts block := by
    rw [b.insts_place _ htarget]
    split
    next heq => simp [heq, hnone, Function.phis]
    next => rfl
  have hsize : (b.place (.phi ty args) target (b.function.phis target).length).2.function.blocks.size
      = b.function.blocks.size :=
    Array.size_modify ..
  have hvalues : (b.place (.phi ty args) target (b.function.phis target).length).2.function.values.size
      = b.function.values.size + 1 :=
    Array.size_push ..
  refine ⟨(b.place (.phi ty args) target (b.function.phis target).length).2, ?_, ?_⟩
  · rw [phi, if_pos (by simpa [Arena.holds] using htarget)]
    rfl
  exact
    { code_eq := fun block => by
        simp only [code, hinsts]
        by_cases hfirst : block = firstBlock
        · subst hfirst
          simp only [if_true, if_neg hne.symm]
          rfl
        · simp only [if_neg hfirst]
      head_eq := by
        simp only [head, hinsts, if_neg hne.symm]
        rfl
      value_eq := fun v => b.value?_place ..
      preds_eq := fun t => b.preds_place ..
      live_eq := fun _ => rfl
      blocks_size := hsize
      values_size := hvalues
      params_eq := rfl
      header_eq := rfl
      current_eq := rfl
      rooted := hb.place _ htarget _ }

end SsaLowering.Ir.Builder
