import SsaLowering.Proofs.Promotion

/-!
# Promoted slots hold what their cells hold

A run of a function in which the promoted slots are cells and a run of the promoted function keep
step. At every point, what a cell holds is the word of the value that renaming found for its slot,
if the slot is live there: at a phi of the slot because its arguments are found at the ends of the
predecessors, and without a phi because nothing between the immediate dominator and the block
changes the slot.
-/

namespace SsaLowering.Proofs

open Ir Ssa List

variable {s : Slot} {v w x : Value} {b : Block} {before after : List Value} {inst : Inst}

section

variable {p : Function} {entry : Block} {doms : Dominators} {slots : List Slot}
  {homes : List (Slot × Block)} {placed : Placed} {walk : Renaming} {held : Block → Held}
  {g : Function}

/-! ### What slots hold -/

/-- Neither a store nor an inserted phi for a slot. -/
def Untouched (slots : List Slot) (p : Function) (placed : Placed) (s : Slot)
    (insts : List Value) : Prop :=
  ∀ v ∈ insts, placed.phis.lookup v ≠ some s ∧ ∀ x, access? slots p v ≠ some (s, .store x)

lemma holdAfter_append (held : Held) (before after : List Value) :
    holdAfter slots p placed walk held (before ++ after) =
      holdAfter slots p placed walk (holdAfter slots p placed walk held before) after :=
  foldl_append

/-- Behind an instruction, a slot holds what it held before, unless the instruction is a store or an
inserted phi for it. -/
lemma Stage.lookup_holdStep (h : Stage p entry doms slots homes placed) (hs : s ∈ slots)
    (held : Held) (hphi : placed.phis.lookup v ≠ some s)
    (hstore : ∀ x, access? slots p v ≠ some (s, .store x)) :
    (holdStep slots p placed.phis (repOf walk) held v).lookup s.address =
      held.lookup s.address := by
  have hother : ∀ {t : Slot} (w : Value), t ∈ slots → t ≠ s →
      List.lookup s.address ((t.address, w) :: held) = held.lookup s.address := by
    intro t w ht hne
    have : (s.address == t.address) = false :=
      beq_eq_false_iff_ne.mpr fun heq => hne (h.distinct.eq ht hs heq.symm)
    rw [lookup_cons, this]
  unfold holdStep
  split
  · next t hl =>
    obtain ⟨i, b, hget, -⟩ := h.inserted.lookup_eq_some_iff.mp hl
    exact hother _ (h.homes_get hget).1 fun heq => hphi (heq ▸ hl)
  · split
    · next t x hacc =>
      exact hother _ ((access?_eq_store_iff h.distinct).mp hacc).1
        fun heq => hstore x (heq ▸ hacc)
    · rfl

lemma Stage.lookup_holdAfter (h : Stage p entry doms slots homes placed) (hs : s ∈ slots)
    (held : Held) {insts : List Value} (hun : Untouched slots p placed s insts) :
    (holdAfter slots p placed walk held insts).lookup s.address = held.lookup s.address := by
  induction insts generalizing held with
  | nil => rfl
  | cons v insts ih =>
    obtain ⟨hphi, hstore⟩ := hun v mem_cons_self
    rw [holdAfter, List.foldl_cons, ← holdAfter,
      ih _ fun w hw => hun w (mem_cons_of_mem _ hw), h.lookup_holdStep hs held hphi hstore]

/-- Where a slot is live and has no phi, it holds along every edge what it held at the end of the
immediate dominator: a store or phi further down would have put a phi here. -/
lemma Renamed.held_along (h : Stage p entry doms slots homes placed)
    (hr : Renamed p entry doms slots homes placed walk held) (hs : s ∈ slots) {q : Block}
    (hq : Reached p entry q) (hedge : Edge p q b) (hlive : b ∈ liveBlocks slots p doms s)
    (hnone : (s, b) ∉ homes) :
    (holdAfter slots p placed walk (held q) (placed.function.insts q)).lookup s.address =
      (held b).lookup s.address := by
  have hb := hq.step hedge
  obtain ⟨d, hidom⟩ := h.dom.idom_exists b hb fun heq =>
    h.pruned.no_edge_to_entry hq (heq ▸ hedge)
  obtain ⟨-, hd⟩ := (h.dom.idom_iff b d).mp hidom
  have hdq := hd.1.1.of_edge hd.1.2 hedge
  refine h.dom.climb_induction h.pruned.predsAgree (d := d) (b := q)
    (motive := fun c => Dominates (Edge p) entry c q →
      (holdAfter slots p placed walk (held c) (placed.function.insts c)).lookup s.address =
        (held b).lookup s.address)
    (fun _ => by rw [hr.held_child b d hidom]) (fun c e hce hdc ih hcq => ?_) hq hdq (.refl q)
  obtain ⟨hc, he⟩ := (h.dom.idom_iff c e).mp hce
  have hfrontier : b ∈ (doms.frontiers p).get c.id :=
    (h.dom.mem_frontiers h.pruned.predsAgree fun r hr => h.pruned.no_edge_to_entry hr).mpr
      ⟨⟨q, hq, hedge, hcq⟩, fun hcb => hdc.2 (hdc.1.antisymm (hd.2 c hcb) (hd.1.1.reachable hb))⟩
  have hclean : ¬ (StoresIn slots p s (p.insts c) ∨ (s, c) ∈ homes) := fun hor =>
    hnone (h.places.closed s hs c hc hor b hfrontier hlive)
  rw [not_or] at hclean
  rw [h.lookup_holdAfter hs, hr.held_child c e hce, ih (he.1.1.trans hcq)]
  intro v hv
  refine ⟨fun hl => ?_, fun x hacc => ?_⟩
  · obtain ⟨i, c', hget, rfl⟩ := h.inserted.lookup_eq_some_iff.mp hl
    rcases h.mem_insts.mp hv with hold | hnew
    · have := h.pruned.lt_size hc hold
      dsimp only at this
      omega
    · obtain ⟨j, t, hget', heq⟩ := mem_newPhis_iff.mp hnew
      have hij : i = j := by
        have := congrArg Value.id heq
        dsimp only at this
        omega
      rw [hij, hget'] at hget
      obtain ⟨rfl, -⟩ := Prod.mk.inj (Option.some.inj hget)
      exact hclean.2 (mem_of_getElem? hget')
  · rcases h.mem_insts.mp hv with hold | hnew
    · exact hclean.1 ⟨v, hold, x, hacc⟩
    · obtain ⟨j, t, -, rfl⟩ := mem_newPhis_iff.mp hnew
      have := Function.lt_size_of_inst? ((access?_eq_store_iff h.distinct).mp hacc).2
      dsimp only at this
      omega

/-! ### Blocks of the promoted function -/

lemma Promoted.isPhi_kept (hg : Promoted p entry slots homes placed walk held g)
    (hb : Reached p entry b) (hv : v ∈ p.insts b) (hkept : isDropped slots p v = false) :
    g.instIs Inst.isPhi v = p.instIs Inst.isPhi v := by
  rw [Function.instIs, hg.inst_kept b hb v hv hkept, Function.instIs]
  cases p.inst? v with
  | none => rfl
  | some inst => cases inst <;> rfl

lemma Promoted.phis_eq (h : Stage p entry doms slots homes placed)
    (hg : Promoted p entry slots homes placed walk held g) (hb : Reached p entry b)
    (hne : b ≠ entry) : g.phis b = p.phis b ++ newPhis p homes b := by
  have hphi : ∀ v ∈ p.phis b ++ newPhis p homes b, g.instIs Inst.isPhi v = true := by
    intro v hv
    rcases mem_append.mp hv with hv | hv
    · have hold := p.instIs_of_mem_phis hv
      rw [hg.isPhi_kept hb (p.phis_subset hv)
        (h.not_isDropped_of_instIs hold not_isSlotInst_of_isPhi), hold]
    · obtain ⟨i, s, hget, rfl⟩ := mem_newPhis_iff.mp hv
      obtain ⟨args, hinst, -⟩ := hg.inst_phi i s b hget
      rw [Function.instIs, hinst]
      rfl
  have hrest : ∀ v ∈ (p.afterPhis b).filter (!isDropped slots p ·),
      g.instIs Inst.isPhi v = false := by
    intro v hv
    obtain ⟨hv, hkept⟩ := mem_filter.mp hv
    have hmem : v ∈ p.insts b := p.phis_append_afterPhis b ▸ mem_append_right _ hv
    rw [hg.isPhi_kept hb hmem (by simpa using hkept), h.pruned.phis_first b hb v hv]
  rw [Function.phis, hg.insts_eq b hb hne, takeWhile_append_of_pos hphi]
  cases hl : (p.afterPhis b).filter (!isDropped slots p ·) with
  | nil => simp
  | cons v rest =>
    have := hrest v (hl ▸ mem_cons_self)
    simp [this]

lemma Promoted.afterPhis_eq (h : Stage p entry doms slots homes placed)
    (hg : Promoted p entry slots homes placed walk held g) (hb : Reached p entry b)
    (hne : b ≠ entry) : g.afterPhis b = (p.afterPhis b).filter (!isDropped slots p ·) := by
  rw [Function.afterPhis, hg.insts_eq b hb hne, hg.phis_eq h hb hne, drop_left]

/-! ### Runs in step -/

/-- Instructions that compute no word. -/
def isSilent : Inst → Bool
  | .store .. => true
  | inst => inst.isTerminator

lemma not_isSilent_of_isPhi (inst : Inst) (h : inst.isPhi = true) : isSilent inst = false := by
  cases inst <;> first | rfl | cases h

/-- A value is computed before a point of a block. -/
def Available (p : Function) (entry : Block) (b : Block) (before : List Value) (x : Value) : Prop :=
  x ∈ before ∨ ∃ d, StrictlyDominates (Edge p) entry d b ∧ x ∈ p.insts d

variable {I : Interpretation} {st st' : RunState I}

def heldWord (regs : Value → I.Word) (s : Slot) : Option Value → I.Word
  | some w => regs w
  | none => I.undef s.ty

lemma SourceOf.regs_eq {undefs : List (Ty × Value)} {held? : Option Value}
    (h : SourceOf undefs s held? w) {regs : Value → I.Word}
    (hundefs : ∀ e ∈ undefs, regs e.2 = I.undef e.1) : regs w = heldWord regs s held? := by
  cases held? with
  | some x =>
    obtain rfl : w = x := h
    rfl
  | none => exact hundefs _ h

def isPromoted (slots : List Slot) (v : Value) : Bool :=
  slots.any (·.address = v)

lemma isPromoted_iff : isPromoted slots v = true ↔ ∃ s ∈ slots, s.address = v := by
  simp [isPromoted]

/-- The slots are made in the entry block. -/
def MadeAtEntry (p : Function) (entry : Block) (slots : List Slot) : Prop :=
  ∀ s ∈ slots, s.address ∈ p.insts entry

/-- The states of both runs at some point of a block. -/
structure InStep (p : Function) (entry : Block) (doms : Dominators) (slots : List Slot)
    (placed : Placed) (walk : Renaming) (held : Block → Held) (b : Block) (before : List Value)
    (st st' : RunState I) : Prop where
  memory_eq : st'.memory = st.memory
  trace_eq : st'.trace = st.trace
  regs_eq : ∀ x : Value, x.id < p.values.size → isPromoted slots x = false →
    Available p entry b before x → st'.regs (repOf walk x) = st.regs x
  silent : ∀ x, p.instIs isSilent x = true → st'.regs x = st.regs x
  undefs : ∀ e ∈ walk.undefs, st'.regs e.2 = I.undef e.1
  cells_eq : ∀ s ∈ slots, (b = entry → s.address ∈ before) →
    b ∈ liveBlocks slots p doms s ∨ StoresIn slots p s before →
      st.cells s.address = heldWord st'.regs s
        ((holdAfter slots p placed walk (held b) before).lookup s.address)

lemma heldWord_congr {regs regs' : Value → I.Word} {held? : Option Value}
    (h : ∀ w, held? = some w → regs' w = regs w) :
    heldWord regs' s held? = heldWord regs s held? := by
  cases held? with
  | some w => exact h w rfl
  | none => rfl

section

variable (h : Stage p entry doms slots homes placed)
  (hr : Renamed p entry doms slots homes placed walk held)
include h hr

lemma Renamed.ne_of_grounded (hb : Reached p entry b)
    (hsplit : placed.function.insts b = before ++ after) (hv : v ∈ after)
    (hw : Grounded p entry slots placed walk b before w) : w ≠ v := by
  have hapart := h.walked_start.instsApart h
  have hmem : v ∈ placed.function.insts b := hsplit ▸ mem_append_right _ hv
  rintro rfl
  rcases hw.computed with ⟨ty, hundef⟩ | hbefore | ⟨d, hd, habove⟩
  · have hge := (hr.walked.undef_lt hundef).1
    dsimp only at hge
    rcases h.mem_insts.mp hmem with hold | hnew
    · have := h.pruned.lt_size hb hold
      omega
    · obtain ⟨i, s, hget, rfl⟩ := mem_newPhis_iff.mp hnew
      have := (List.getElem?_eq_some_iff.mp hget).1
      dsimp only at hge
      omega
  · have hnodup := hapart.nodup b (h.pruned.listed b hb)
    rw [hsplit, List.nodup_append] at hnodup
    exact hnodup.2.2 w hbefore w hv rfl
  · have hdr := hd.1.reachable hb
    exact hd.2 (hapart.apart d (h.pruned.listed d hdr) b (h.pruned.listed b hb) w habove hmem)

lemma Renamed.undef_grounded {e : Ty × Value} (he : e ∈ walk.undefs) (b : Block)
    (before : List Value) : Grounded p entry slots placed walk b before e.2 := by
  refine ⟨fun hload => ?_, .inl ⟨e.1, he⟩⟩
  have := hload.lt_size h.distinct
  have := (hr.walked.undef_lt he).1
  omega

lemma Renamed.available_grounded (hb : Reached p entry b)
    (hsplit : placed.function.insts b = before ++ after) (hx : Available p entry b before x) :
    Grounded p entry slots placed walk b before (repOf walk x) := by
  obtain ⟨-, hreps, habove⟩ := hr.grounded h hb hsplit
  rcases hx with hx | ⟨d, hd, hx⟩
  · exact hreps x hx
  · exact habove d hd x hx

end

section

variable (h : Stage p entry doms slots homes placed) (hb : Reached p entry b)
include h hb

lemma Stage.operand_ready (hsplit : placed.function.insts b = before ++ v :: after)
    (hinst : p.inst? v = some inst) (hphi : inst.isPhi = false) (hw : w ∈ inst.operands) :
    w.id < p.values.size ∧ Available p entry b before w := by
  refine ⟨?_, h.operand_before hb hsplit hinst hphi hw⟩
  have hold := h.old_split hb hsplit (Function.lt_size_of_inst? hinst)
  rcases h.pruned.operand_available hb hold hinst hphi hw with hmem | ⟨d, hd, hmem⟩
  · exact h.pruned.lt_size hb (by rw [hold]; exact mem_append_left _ hmem)
  · exact h.pruned.lt_size (hd.1.reachable hb) hmem

lemma Stage.not_isPromoted_of_escaping (hv : v ∈ p.insts b) (hw : w ∈ escaping p v) :
    isPromoted slots w = false := by
  by_contra hne
  obtain ⟨s, hs, rfl⟩ := isPromoted_iff.mp (Bool.not_eq_false _ ▸ hne)
  exact ((h.slots_iff s).mp hs).hidden b hb v hv hw

lemma Stage.operand_not_isPromoted (hv : v ∈ p.insts b) (hkept : isDropped slots p v = false)
    (hinst : p.inst? v = some inst) (hw : w ∈ inst.operands) : isPromoted slots w = false := by
  have hnot : ¬ _ := fun hd => Bool.false_ne_true (hkept.symm.trans (isDropped_iff.mpr hd))
  have hescape : ∀ {x}, x ∈ escaping p v → isPromoted slots x = false :=
    fun hx => h.not_isPromoted_of_escaping hb hv hx
  have haddress : ∀ {a}, (∀ s ∈ slots, s.address = a → False) → isPromoted slots a = false := by
    intro a ha
    by_contra hne
    obtain ⟨s, hs, heq⟩ := isPromoted_iff.mp (Bool.not_eq_false _ ▸ hne)
    exact ha s hs heq
  cases inst with
  | load ty a =>
    obtain rfl := mem_singleton.mp hw
    exact haddress fun s hs heq => hnot (.inr (.inl ⟨s, (access?_eq_load_iff h.distinct).mpr
      ⟨hs, ty, heq ▸ hinst⟩⟩))
  | store a x =>
    rcases mem_cons.mp hw with rfl | hw
    · exact haddress fun s hs heq => hnot (.inr (.inr ⟨s, x, (access?_eq_store_iff h.distinct).mpr
        ⟨hs, heq ▸ hinst⟩⟩))
    · exact hescape (by rw [escaping, hinst]; exact hw)
  | _ => exact hescape (by rw [escaping, hinst]; exact hw)

end

namespace InStep

variable {next next' : RunState I}

section

variable (h : Stage p entry doms slots homes placed)
  (hr : Renamed p entry doms slots homes placed walk held) (hb : Reached p entry b)
  (hsplit : placed.function.insts b = before ++ v :: after)
include h hr hb hsplit

/-- What a slot holds is not changed by computing another value. -/
lemma heldWord_eq (hregs' : ∀ x, x ≠ v → next'.regs x = st'.regs x) (s : Slot) :
    heldWord next'.regs s ((holdAfter slots p placed walk (held b) before).lookup s.address) =
      heldWord st'.regs s ((holdAfter slots p placed walk (held b) before).lookup s.address) := by
  refine heldWord_congr fun w hw => hregs' w ?_
  exact hr.ne_of_grounded h hb hsplit mem_cons_self
    ((hr.grounded h hb hsplit).1 _ (mem_of_lookup hw))

/-- One instruction more: it may change the word of its own value only, and a cell if it is an
access. -/
lemma extend (hin : InStep p entry doms slots placed walk held b before st st')
    (hmemory : next'.memory = next.memory) (htrace : next'.trace = next.trace)
    (hregs : ∀ x, x ≠ v → next.regs x = st.regs x) (hregs' : ∀ x, x ≠ v → next'.regs x = st'.regs x)
    (hvalue : isPromoted slots v = false → next'.regs (repOf walk v) = next.regs v)
    (hsilent : p.instIs isSilent v = true → next'.regs v = next.regs v)
    (hcells : ∀ s ∈ slots, (b = entry → s.address ∈ before ++ [v]) →
      b ∈ liveBlocks slots p doms s ∨ StoresIn slots p s (before ++ [v]) →
      next.cells s.address = heldWord next'.regs s
        ((holdAfter slots p placed walk (held b) (before ++ [v])).lookup s.address)) :
    InStep p entry doms slots placed walk held b (before ++ [v]) next next' where
  memory_eq := hmemory
  trace_eq := htrace
  regs_eq x hx hprom hav := by
    by_cases hxv : x = v
    · rw [hxv] at hprom ⊢
      exact hvalue hprom
    · have hav' : Available p entry b before x :=
        hav.imp_left fun hmem => (mem_append.mp hmem).resolve_right (by simpa using hxv)
      have hne := hr.ne_of_grounded h hb hsplit mem_cons_self
        (hr.available_grounded h hb hsplit hav')
      rw [hregs x hxv, hregs' _ hne, hin.regs_eq x hx hprom hav']
  silent x hx := by
    by_cases hxv : x = v
    · rw [hxv] at hx ⊢
      exact hsilent hx
    · rw [hregs x hxv, hregs' x hxv, hin.silent x hx]
  undefs e he := by
    have hne := hr.ne_of_grounded h hb hsplit mem_cons_self (hr.undef_grounded h he b before)
    rw [hregs' _ hne, hin.undefs e he]
  cells_eq := hcells

lemma cell_eq (hin : InStep p entry doms slots placed walk held b before st st')
    (hregs' : ∀ x, x ≠ v → next'.regs x = st'.regs x) (hv : v.id < p.values.size) (hs : s ∈ slots)
    (hne : s.address ≠ v) (hstore : ∀ x, access? slots p v ≠ some (s, .store x))
    (hcell : next.cells s.address = st.cells s.address)
    (hmade : b = entry → s.address ∈ before ++ [v])
    (hlive : b ∈ liveBlocks slots p doms s ∨ StoresIn slots p s (before ++ [v])) :
    next.cells s.address = heldWord next'.regs s
      ((holdAfter slots p placed walk (held b) (before ++ [v])).lookup s.address) := by
  have hmade' : b = entry → s.address ∈ before := fun heq =>
    (mem_append.mp (hmade heq)).resolve_right (by simpa using hne)
  have hlive' : b ∈ liveBlocks slots p doms s ∨ StoresIn slots p s before := by
    refine hlive.imp_right ?_
    rintro ⟨w, hw, x, hacc⟩
    rcases mem_append.mp hw with hw | hw
    · exact ⟨w, hw, x, hacc⟩
    · obtain rfl := mem_singleton.mp hw
      exact absurd hacc (hstore x)
  have hphi : placed.phis.lookup v ≠ some s := by
    rw [h.inserted.lookup_old hv]
    simp
  rw [hcell, holdAfter_append]
  change _ = heldWord _ _ ((holdStep slots p placed.phis (repOf walk) _ v).lookup _)
  rw [h.lookup_holdStep hs _ hphi hstore, heldWord_eq h hr hb hsplit hregs',
    hin.cells_eq s hs hmade' hlive']

lemma keep (hin : InStep p entry doms slots placed walk held b before st st')
    (hv : v.id < p.values.size) (hkept : isDropped slots p v = false)
    (hmemory : next'.memory = next.memory) (htrace : next'.trace = next.trace)
    (hcells : next.cells = st.cells) (hregs : ∀ x, x ≠ v → next.regs x = st.regs x)
    (hregs' : ∀ x, x ≠ v → next'.regs x = st'.regs x) (hvalue : next'.regs v = next.regs v) :
    InStep p entry doms slots placed walk held b (before ++ [v]) next next' := by
  have hnot : ¬ _ := fun hd => Bool.false_ne_true (hkept.symm.trans (isDropped_iff.mpr hd))
  have hload : ¬ IsLoad slots p v := fun hl => hnot (.inr (.inl hl))
  refine hin.extend h hr hb hsplit hmemory htrace hregs hregs'
    (fun _ => by rw [hr.agrees.other v hload, hvalue]) (fun _ => hvalue)
    fun s hs hmade hlive => ?_
  exact hin.cell_eq h hr hb hsplit hregs' hv hs (fun heq => hnot (.inl ⟨s, hs, heq⟩))
    (fun x hacc => hnot (.inr (.inr ⟨s, x, hacc⟩))) (by rw [hcells]) hmade hlive

lemma load (hin : InStep p entry doms slots placed walk held b before st st')
    (hacc : access? slots p v = some (s, .load)) :
    InStep p entry doms slots placed walk held b (before ++ [v])
      (st.setReg v (st.cells s.address)) st' := by
  obtain ⟨hs, ty, hinst⟩ := (access?_eq_load_iff h.distinct).mp hacc
  have hv := Function.lt_size_of_inst? hinst
  have hold := h.old_split hb hsplit hv
  have hregs : ∀ x, x ≠ v → (st.setReg v (st.cells s.address)).regs x = st.regs x :=
    fun x hx => Function.update_of_ne hx _ _
  refine hin.extend h hr hb hsplit hin.memory_eq hin.trace_eq hregs (fun _ _ => rfl) (fun _ => ?_)
    (fun hsil => by rw [Function.instIs, hinst] at hsil; cases hsil)
    fun t ht hmade hlive => ?_
  · have hmade : b = entry → s.address ∈ before := by
      rintro rfl
      rcases h.operand_before hb hsplit hinst rfl (w := s.address) (by simp [Inst.operands]) with
        hmem | ⟨d, hd, -⟩
      · exact hmem
      · exact absurd rfl hd.ne_entry
    have hlive : b ∈ liveBlocks slots p doms s ∨ StoresIn slots p s before := by
      by_cases hstored : StoresIn slots p s before
      · exact .inr hstored
      · refine .inl ((h.pruned.liveSet h.dom s).uses b hb
          (loadsFirst_of_split hold hacc ?_))
        rintro ⟨w, hw, x, hx⟩
        exact hstored ⟨w, (mem_filter.mp hw).1, x, hx⟩
    have hsource := hr.load_source b hb before v after s hsplit hacc
    rw [hsource.regs_eq hin.undefs, ← hin.cells_eq s hs hmade hlive]
    exact (Function.update_self v _ st.regs).symm
  · refine hin.cell_eq h hr hb hsplit (fun _ _ => rfl) hv ht (fun heq => ?_) (by simp [hacc]) rfl
      hmade hlive
    rw [← heq, ((h.slots_iff t).mp ht).alloca] at hinst
    cases hinst

lemma store (hin : InStep p entry doms slots placed walk held b before st st')
    (hacc : access? slots p v = some (s, .store x)) :
    InStep p entry doms slots placed walk held b (before ++ [v])
      (st.setCell s.address (st.regs x)) st' := by
  obtain ⟨hs, hinst⟩ := (access?_eq_store_iff h.distinct).mp hacc
  have hv := Function.lt_size_of_inst? hinst
  have hold := h.old_split hb hsplit hv
  have hsilent : p.instIs isSilent v = true := by rw [Function.instIs, hinst]; rfl
  have hload : ¬ IsLoad slots p v := by
    rintro ⟨t, hload⟩
    rw [hacc] at hload
    cases hload
  refine hin.extend h hr hb hsplit hin.memory_eq hin.trace_eq (fun _ _ => rfl) (fun _ _ => rfl)
    (fun _ => by rw [hr.agrees.other v hload]; exact hin.silent v hsilent)
    (fun _ => hin.silent v hsilent) fun t ht hmade hlive => ?_
  by_cases hts : t = s
  · subst hts
    obtain ⟨hx, hav⟩ := h.operand_ready hb hsplit hinst rfl (w := x) (by simp [Inst.operands])
    have hprom : isPromoted slots x = false :=
      h.not_isPromoted_of_escaping hb (v := v) (by simp [hold]) (by simp [escaping, hinst])
    rw [holdAfter_append]
    have hhold : holdStep slots p placed.phis (repOf walk)
        (holdAfter slots p placed walk (held b) before) v = (t.address, repOf walk x) ::
          holdAfter slots p placed walk (held b) before := by
      rw [holdStep, h.inserted.lookup_old hv, hacc]
    change _ = heldWord _ _ ((holdStep slots p placed.phis (repOf walk) _ v).lookup _)
    rw [hhold, lookup_cons_self]
    change Function.update st.cells t.address (st.regs x) t.address = st'.regs (repOf walk x)
    rw [Function.update_self, hin.regs_eq x hx hprom hav]
  · refine hin.cell_eq h hr hb hsplit (fun _ _ => rfl) hv ht (fun heq => ?_) (fun y hy => ?_)
      (Function.update_of_ne (fun heq => hts (h.distinct.eq ht hs heq)) _ _) hmade hlive
    · rw [← heq, ((h.slots_iff t).mp ht).alloca] at hinst
      cases hinst
    · rw [hacc] at hy
      exact hts (Prod.mk.inj (Option.some.inj hy)).1.symm

lemma slot (hmade : MadeAtEntry p entry slots)
    (hin : InStep p entry doms slots placed walk held b before st st') (hs : s ∈ slots)
    (hv : s.address = v) :
    InStep p entry doms slots placed walk held b (before ++ [v])
      (st.setCell v (I.undef s.ty)) st' := by
  have hslot := (h.slots_iff s).mp hs
  have hinst := hslot.alloca
  rw [hv] at hinst
  have hlt := Function.lt_size_of_inst? hinst
  have hold := h.old_split hb hsplit hlt
  have hentry : b = entry :=
    h.pruned.home_unique b entry hb .at_entry v (by simp [hold]) (hv ▸ hmade s hs)
  refine hin.extend h hr hb hsplit hin.memory_eq hin.trace_eq (fun _ _ => rfl) (fun _ _ => rfl)
    (fun hprom => ?_) (fun hsil => by rw [Function.instIs, hinst] at hsil; cases hsil)
    fun t ht hready hlive => ?_
  · rw [isPromoted_iff.mpr ⟨s, hs, hv⟩] at hprom
    cases hprom
  · by_cases hts : t = s
    · subst hts
      have hnone : (holdAfter slots p placed walk (held b) (before ++ [v])).lookup t.address =
          none := by
        subst hentry
        rw [h.lookup_holdAfter ht, hr.held_entry]
        · rfl
        intro w hw
        -- a store before the slot is made would use an address that is not there yet
        have hmem : w ∈ p.insts b := by
          rw [← h.insts_entry, hsplit]
          rcases mem_append.mp hw with hw | hw
          · exact mem_append_left _ hw
          · exact mem_append_right _ (mem_singleton.mp hw ▸ mem_cons_self)
        refine ⟨by rw [h.inserted.lookup_old (h.pruned.lt_size hb hmem)]; simp, fun x hacc => ?_⟩
        obtain ⟨-, hstore⟩ := (access?_eq_store_iff h.distinct).mp hacc
        rcases mem_append.mp hw with hw | hw
        · obtain ⟨early, late, rfl⟩ := append_of_mem hw
          have hsplit' : placed.function.insts b = early ++ w :: (late ++ v :: after) := by
            rw [hsplit]
            simp
          rcases h.operand_before hb hsplit' hstore rfl (w := t.address)
            (by simp [Inst.operands]) with hmem | ⟨d, hd, -⟩
          · have hnodup := h.pruned.insts_nodup b hb
            rw [← h.insts_entry, hsplit, List.nodup_append] at hnodup
            refine hnodup.2.2 v ?_ v mem_cons_self rfl
            rw [← hv]
            exact mem_append_left _ hmem
          · exact absurd rfl hd.ne_entry
        · obtain rfl := mem_singleton.mp hw
          rw [hinst] at hstore
          cases hstore
      rw [hnone, hv]
      exact Function.update_self _ _ _
    · refine hin.cell_eq h hr hb hsplit (fun _ _ => rfl) hlt ht
        (fun heq => hts (h.distinct.eq ht hs (heq.trans hv.symm))) (fun y hy => ?_)
        (Function.update_of_ne (fun heq => hts (h.distinct.eq ht hs (heq.trans hv.symm))) _ _)
        hready hlive
      obtain ⟨-, hstore⟩ := (access?_eq_store_iff h.distinct).mp hy
      rw [hinst] at hstore
      cases hstore

end

lemma words_eq (h : Stage p entry doms slots homes placed) (hb : Reached p entry b)
    (hsplit : placed.function.insts b = before ++ v :: after)
    (hin : InStep p entry doms slots placed walk held b before st st')
    (hinst : p.inst? v = some inst) (hphi : inst.isPhi = false)
    (hkept : isDropped slots p v = false) :
    (inst.mapOperands (repOf walk)).operands.map st'.regs = inst.operands.map st.regs := by
  rw [Inst.operands_mapOperands, map_map]
  refine map_congr_left fun w hw => ?_
  obtain ⟨hlt, hav⟩ := h.operand_ready hb hsplit hinst hphi hw
  have hmem : v ∈ p.insts b := by
    rw [h.old_split hb hsplit (Function.lt_size_of_inst? hinst)]
    simp
  exact hin.regs_eq w hlt (h.operand_not_isPromoted hb hmem hkept hinst hw) hav

end InStep

def slotMachine (slots : List Slot) (p : Function) (args : List I.Word) : Machine I :=
  ⟨p, isPromoted slots, args⟩

def ssaMachine (g : Function) (args : List I.Word) : Machine I :=
  ⟨g, fun _ => false, args⟩

/-- Both runs end a block in the same way. -/
inductive EndInStep (p : Function) (entry : Block) (doms : Dominators) (slots : List Slot)
    (placed : Placed) (walk : Renaming) (held : Block → Held) (b : Block) :
    BlockEnd I → BlockEnd I → Prop where
  | halt {st st' : RunState I} (outcome : Outcome I.Word) (memory_eq : st'.memory = st.memory)
    (trace_eq : st'.trace = st.trace) : EndInStep p entry doms slots placed walk held b
      (.halt outcome st) (.halt outcome st')
  | goto {st st' : RunState I} (target : Block) (turn : Nat)
    (step : InStep p entry doms slots placed walk held b (placed.function.insts b) st st') :
    EndInStep p entry doms slots placed walk held b (.goto target turn st)
      (.goto target turn st')

lemma isSilent_of_perform {args words : List I.Word} {memory memory' : I.Memory}
    (h : (I.perform args inst words memory).2 = some (none, memory')) : isSilent inst = true := by
  cases inst with
  | store => rfl
  | param | phi | alloca => simp [Interpretation.perform] at h
  | load =>
    rcases words with _ | ⟨a, _ | ⟨x, words⟩⟩ <;>
      simp [Interpretation.perform, Interpretation.operate] at h
  | _ => simp [Interpretation.perform] at h

lemma Stage.touchesCell_eq_false (h : Stage p entry doms slots homes placed)
    (hb : Reached p entry b) (hv : v ∈ p.insts b) (hinst : p.inst? v = some inst)
    (hkept : isDropped slots p v = false) (args : List I.Word) :
    (slotMachine slots p args).touchesCell v inst = false := by
  have hprom : isPromoted slots v = false := by
    rw [isDropped, Bool.or_eq_false_iff] at hkept
    exact hkept.1
  have hoperand := fun {w} hw => h.operand_not_isPromoted hb hv hkept hinst (w := w) hw
  cases inst with
  | alloca => exact hprom
  | load ty a => exact hoperand (by simp [Inst.operands])
  | store a x => exact hoperand (by simp [Inst.operands])
  | _ => rfl

section

variable (h : Stage p entry doms slots homes placed)
  (hr : Renamed p entry doms slots homes placed walk held)
include h hr

lemma InStep.exec_kept (hb : Reached p entry b)
    (hsplit : placed.function.insts b = before ++ v :: after)
    (hin : InStep p entry doms slots placed walk held b before st st')
    (hinst : p.inst? v = some inst) (hkept : isDropped slots p v = false) (args : List I.Word) :
    (∃ next next', (slotMachine slots p args).exec v inst st = .ok next ∧
      (ssaMachine g args).exec v (inst.mapOperands (repOf walk)) st' = .ok next' ∧
      InStep p entry doms slots placed walk held b (before ++ [v]) next next') ∨
    ∃ last last', (slotMachine slots p args).exec v inst st = .error last ∧
      (ssaMachine g args).exec v (inst.mapOperands (repOf walk)) st' = .error last' ∧
      last'.memory = last.memory ∧ last'.trace = last.trace := by
  have hv := Function.lt_size_of_inst? hinst
  have hmem : v ∈ p.insts b := by simp [h.old_split hb hsplit hv]
  have hperform : I.perform args (inst.mapOperands (repOf walk))
      ((inst.mapOperands (repOf walk)).operands.map st'.regs) st'.memory =
      I.perform args inst (inst.operands.map st.regs) st.memory := by
    rw [I.perform_mapOperands, hin.memory_eq]
    cases hphi : inst.isPhi with
    | false => rw [hin.words_eq h hb hsplit hinst hphi hkept]
    | true => cases inst <;> first | rfl | cases hphi
  have hcell' : (ssaMachine g args).touchesCell v (inst.mapOperands (repOf walk)) = false := by
    cases inst <;> rfl
  rw [Machine.exec_eq_proceed _ (h.touchesCell_eq_false hb hmem hinst hkept args),
    Machine.exec_eq_proceed _ hcell']
  change (∃ next next', st.proceed v (I.perform args _ _ _) = _ ∧
    st'.proceed v (I.perform args _ _ _) = _ ∧ _) ∨ ∃ last last',
      st.proceed v (I.perform args _ _ _) = _ ∧ st'.proceed v (I.perform args _ _ _) = _ ∧ _
  rw [hperform]
  have hsilent := fun memory' => @isSilent_of_perform inst I args (inst.operands.map st.regs)
    st.memory memory'
  revert hsilent
  rcases I.perform args inst (inst.operands.map st.regs) st.memory with
    ⟨events, _ | ⟨_ | word, memory⟩⟩ <;> intro hsilent
  · exact .inr ⟨_, _, rfl, rfl, hin.memory_eq, by rw [hin.trace_eq]⟩
  · refine .inl ⟨_, _, rfl, rfl, hin.keep h hr hb hsplit hv hkept rfl (by rw [hin.trace_eq]) rfl
      (fun _ _ => rfl) (fun _ _ => rfl) (hin.silent v ?_)⟩
    rw [Function.instIs, hinst]
    exact hsilent memory rfl
  · refine .inl ⟨_, _, rfl, rfl, hin.keep h hr hb hsplit hv hkept rfl (by rw [hin.trace_eq]) rfl
      (fun x hx => Function.update_of_ne hx _ _) (fun x hx => Function.update_of_ne hx _ _) ?_⟩
    exact (Function.update_self v word st'.regs).trans (Function.update_self v word st.regs).symm

lemma InStep.exec_dropped (hmade : MadeAtEntry p entry slots) (hb : Reached p entry b)
    (hsplit : placed.function.insts b = before ++ v :: after)
    (hin : InStep p entry doms slots placed walk held b before st st')
    (hinst : p.inst? v = some inst) (hdrop : isDropped slots p v = true) (args : List I.Word) :
    ∃ next, (slotMachine slots p args).exec v inst st = .ok next ∧
      InStep p entry doms slots placed walk held b (before ++ [v]) next st' := by
  have hcell : ∀ s ∈ slots, (slotMachine slots p args).isCell s.address = true :=
    fun s hs => isPromoted_iff.mpr ⟨s, hs, rfl⟩
  rcases isDropped_iff.mp hdrop with ⟨s, hs, rfl⟩ | ⟨s, hacc⟩ | ⟨s, x, hacc⟩
  · have halloca := ((h.slots_iff s).mp hs).alloca
    rw [Option.some.inj (hinst.symm.trans halloca), Machine.exec, if_pos (hcell s hs)]
    exact ⟨_, rfl, hin.slot h hr hb hsplit hmade hs rfl⟩
  · obtain ⟨hs, ty, hload⟩ := (access?_eq_load_iff h.distinct).mp hacc
    rw [Option.some.inj (hinst.symm.trans hload), Machine.exec, if_pos (hcell s hs)]
    exact ⟨_, rfl, hin.load h hr hb hsplit hacc⟩
  · obtain ⟨hs, hstore⟩ := (access?_eq_store_iff h.distinct).mp hacc
    rw [Option.some.inj (hinst.symm.trans hstore), Machine.exec, if_pos (hcell s hs)]
    exact ⟨_, rfl, hin.store h hr hb hsplit hacc⟩

omit h hr in
lemma leave_mapOperands {rep : Value → Value} (hterm : inst.isTerminator = true)
    (hwords : (inst.mapOperands rep).operands.map st'.regs = inst.operands.map st.regs) :
    (∃ outcome, Machine.leave st inst = .halt outcome st ∧
      Machine.leave st' (inst.mapOperands rep) = .halt outcome st') ∨
    ∃ target turn, Machine.leave st inst = .goto target turn st ∧
      Machine.leave st' (inst.mapOperands rep) = .goto target turn st' := by
  cases inst with
  | br target => exact .inr ⟨target, 0, rfl, rfl⟩
  | condBr condition thenBlock elseBlock =>
    have hword : st'.regs (rep condition) = st.regs condition := by
      simpa [Inst.mapOperands, Inst.operands] using hwords
    simp only [Machine.leave, Inst.mapOperands, hword]
    split
    · exact .inr ⟨_, _, rfl, rfl⟩
    · exact .inr ⟨_, _, rfl, rfl⟩
  | ret value =>
    cases value with
    | none => exact .inl ⟨_, rfl, rfl⟩
    | some x =>
      have hword : st'.regs (rep x) = st.regs x := by
        simpa [Inst.mapOperands, Inst.operands] using hwords
      simp only [Machine.leave, Inst.mapOperands, Option.map_some, hword]
      exact .inl ⟨_, rfl, rfl⟩
  | unreachable => exact .inl ⟨_, rfl, rfl⟩
  | _ => cases hterm

/-- The rest of a block, from a point that both runs have come to. -/
theorem InStep.runInsts (hmade : MadeAtEntry p entry slots)
    (hg : Promoted p entry slots homes placed walk held g) (hb : Reached p entry b)
    (args : List I.Word) (todo : List Value) (hsplit : placed.function.insts b = before ++ todo)
    (hold : ∀ v ∈ todo, v ∈ p.insts b)
    (hin : InStep p entry doms slots placed walk held b before st st') :
    EndInStep p entry doms slots placed walk held b
      ((slotMachine slots p args).runInsts todo st)
      ((ssaMachine g args).runInsts (todo.filter (!isDropped slots p ·)) st') := by
  induction todo generalizing before st st' with
  | nil => exact .halt _ hin.memory_eq hin.trace_eq
  | cons v rest ih =>
    have hmem := hold v mem_cons_self
    have hnext : placed.function.insts b = (before ++ [v]) ++ rest := by simp [hsplit]
    have hrest : ∀ w ∈ rest, w ∈ p.insts b := fun w hw => hold w (mem_cons_of_mem _ hw)
    obtain ⟨inst, hinst⟩ := Option.isSome_iff_exists.mp (h.pruned.values_exist b hb v hmem)
    cases hdrop : isDropped slots p v with
    | true =>
      have hskip : (v :: rest).filter (!isDropped slots p ·) =
          rest.filter (!isDropped slots p ·) := by simp [hdrop]
      have hterm : inst.isTerminator = false := by
        have hslot := h.isSlotInst_of_isDropped hdrop
        rw [Function.instIs, hinst] at hslot
        cases inst <;> first | rfl | cases hslot
      rw [hskip, Machine.runInsts_cons_exec _ rest st hinst hterm]
      obtain ⟨next, heq, hin'⟩ := hin.exec_dropped h hr hmade hb hsplit hinst hdrop args
      rw [heq]
      exact ih hnext hrest hin'
    | false =>
      have hkeep : (v :: rest).filter (!isDropped slots p ·) =
          v :: rest.filter (!isDropped slots p ·) := by simp [hdrop]
      have hinst' : (ssaMachine g args).function.inst? v =
          some (inst.mapOperands (repOf walk)) := by
        change g.inst? v = _
        rw [hg.inst_kept b hb v hmem hdrop, hinst]
        rfl
      rw [hkeep]
      cases hterm : inst.isTerminator with
      | true =>
        have hphi : inst.isPhi = false := by cases inst <;> first | rfl | cases hterm
        have hsilent : st'.regs v = st.regs v := hin.silent v (by
          rw [Function.instIs, hinst]
          cases inst <;> first | rfl | cases hterm)
        have hnil : rest = [] := by
          have hsplit' := h.old_split hb hsplit (Function.lt_size_of_inst? hinst)
          obtain ⟨hnil, -⟩ := h.pruned.successors_of_terminator hb hsplit' hinst hterm
          refine eq_nil_iff_forall_not_mem.mpr fun w hw => ?_
          have hlt : decide (w.id < p.values.size) = true :=
            decide_eq_true (h.pruned.lt_size hb (hrest w hw))
          exact not_mem_nil (hnil ▸ mem_filter.mpr ⟨hw, hlt⟩)
        rw [Machine.runInsts_cons_leave _ rest st hinst hterm,
          Machine.runInsts_cons_leave _ _ st' hinst' (by rw [Inst.isTerminator_mapOperands, hterm])]
        rcases leave_mapOperands hterm (hin.words_eq h hb hsplit hinst hphi hdrop) with
          ⟨outcome, heq, heq'⟩ | ⟨target, turn, heq, heq'⟩
        · rw [heq, heq']
          exact .halt outcome hin.memory_eq hin.trace_eq
        · rw [heq, heq']
          refine .goto target turn ?_
          rw [hnext, hnil, append_nil]
          exact hin.keep h hr hb hsplit (Function.lt_size_of_inst? hinst) hdrop hin.memory_eq
            hin.trace_eq rfl (fun _ _ => rfl) (fun _ _ => rfl) hsilent
      | false =>
        rw [Machine.runInsts_cons_exec _ rest st hinst hterm,
          Machine.runInsts_cons_exec _ _ st' hinst' (by rw [Inst.isTerminator_mapOperands, hterm])]
        rcases hin.exec_kept (g := g) h hr hb hsplit hinst hdrop args with
          ⟨next, next', heq, heq', hin'⟩ | ⟨last, last', heq, heq', hmemory, htrace⟩
        · rw [heq, heq']
          exact ih hnext hrest hin'
        · rw [heq, heq']
          exact .halt _ hmemory htrace

end

/-! ### Edges -/

lemma incoming_map (preds : List Block) (args : List Value) (source : Block) (f : Value → Value) :
    incoming preds (args.map f) source = (incoming preds args source).map f := by
  rw [incoming, zip_map_right, filter_map, map_map, incoming, map_map]
  rfl

/-- Along an edge that is there, a phi has an argument: it stands where the edge is recorded. -/
lemma exists_incoming {preds : List Block} {args : List Value} {source : Block} {turn : Nat}
    (hlen : args.length = preds.length) (hturn : turn < preds.count source) :
    ∃ (j : Nat) (w : Value), (incoming preds args source)[turn]? = some w ∧
      preds[j]? = some source ∧ args[j]? = some w := by
  have hcount : (incoming preds args source).length = preds.count source := by
    rw [incoming, length_map, count_eq_length_filter]
    have hfst : (preds.zip args).map Prod.fst = preds := map_fst_zip hlen.ge
    conv_rhs => rw [← hfst]
    rw [filter_map, length_map]
    rfl
  obtain ⟨w, hw⟩ : ∃ w, (incoming preds args source)[turn]? = some w :=
    List.getElem?_eq_some_iff.mpr ⟨by omega, rfl⟩ |> fun h => ⟨_, h⟩
  obtain ⟨⟨q, w'⟩, hmem, rfl⟩ := mem_map.mp (mem_of_getElem? hw)
  obtain ⟨hzip, hq⟩ := mem_filter.mp hmem
  obtain ⟨j, hj⟩ := mem_iff_getElem?.mp hzip
  rw [getElem?_zip_eq_some] at hj
  refine ⟨j, _, hw, ?_, hj.2⟩
  rw [hj.1]
  exact congrArg some (of_decide_eq_true hq)

section Edges

variable {t : Block} {turn : Nat}

section

variable (h : Stage p entry doms slots homes placed)
include h

lemma Stage.available_of_edge (hedge : Edge p b t) {d : Block}
    (hd : StrictlyDominates (Edge p) entry d t) (hx : x ∈ p.insts d) :
    Available p entry b (placed.function.insts b) x := by
  by_cases hdb : d = b
  · exact .inl (h.mem_insts.mpr (.inl (hdb ▸ hx)))
  · exact .inr ⟨d, ⟨hd.1.of_edge hd.2 hedge, hdb⟩, hx⟩

lemma Stage.phi_arg_ready (hb : Reached p entry b) (ht : Reached p entry t) (hx : x ∈ p.insts t)
    {ty : Ty} {args : List Value} (hinst : p.inst? x = some (.phi ty args)) {j : Nat}
    (hpred : (p.preds t)[j]? = some b) (harg : args[j]? = some w) :
    w.id < p.values.size ∧ isPromoted slots w = false ∧
      Available p entry b (placed.function.insts b) w := by
  have hzip : (b, w) ∈ (p.preds t).zip args :=
    mem_of_getElem? (getElem?_zip_eq_some.mpr ⟨hpred, harg⟩)
  obtain ⟨d, hd, hw⟩ := h.pruned.available_by hb
    (h.pruned.phi_defined t ht x hx ty args hinst _ hzip hb)
  refine ⟨h.pruned.lt_size (hd.reachable hb) hw, ?_, ?_⟩
  · refine h.not_isPromoted_of_escaping ht hx ?_
    rw [escaping, hinst]
    exact mem_of_getElem? harg
  · by_cases hdb : d = b
    · exact .inl (h.mem_insts.mpr (.inl (hdb ▸ hw)))
    · exact .inr ⟨d, ⟨hd, hdb⟩, hw⟩

lemma Stage.untouched_phis (ht : Reached p entry t) (s : Slot) :
    Untouched slots p placed s (p.phis t) := by
  intro v hv
  refine ⟨?_, fun x hacc => ?_⟩
  · rw [h.inserted.lookup_old (h.pruned.lt_size ht (p.phis_subset hv))]
    simp
  · have hphi := p.instIs_of_mem_phis hv
    rw [Function.instIs, ((access?_eq_store_iff h.distinct).mp hacc).2] at hphi
    cases hphi

lemma Stage.untouched_newPhis {phis : List Value}
    (hphis : ∀ v ∈ phis, ∃ i u, homes[i]? = some (u, t) ∧ u ≠ s ∧ v = ⟨p.values.size + i⟩) :
    Untouched slots p placed s phis := by
  intro v hv
  obtain ⟨i, u, hget, hne, rfl⟩ := hphis v hv
  refine ⟨fun hl => ?_, fun x hacc => ?_⟩
  · obtain ⟨j, c, hget', heq⟩ := h.inserted.lookup_eq_some_iff.mp hl
    have hij : i = j := by
      have := congrArg Value.id heq
      dsimp only at this
      omega
    rw [hij, hget'] at hget
    exact hne (Prod.mk.inj (Option.some.inj hget)).1.symm
  · have := Function.lt_size_of_inst? ((access?_eq_store_iff h.distinct).mp hacc).2
    dsimp only at this
    omega

/-- Behind its phi in a block, a slot holds the phi. -/
lemma Stage.lookup_newPhi {i : Nat} (hget : homes[i]? = some (s, t)) (held : Held) :
    (holdAfter slots p placed walk held (p.phis t ++ newPhis p homes t)).lookup s.address =
      some ⟨p.values.size + i⟩ := by
  obtain ⟨early, late, heq⟩ := append_of_mem (mem_newPhis_iff.mpr ⟨i, s, hget, rfl⟩)
  have hnodup := newPhis_nodup p homes t
  rw [heq, List.nodup_append, nodup_cons] at hnodup
  have hlate : Untouched slots p placed s late := by
    refine h.untouched_newPhis (t := t) fun v hv => ?_
    have hmem : v ∈ newPhis p homes t := by
      rw [heq]
      exact mem_append_right _ (mem_cons_of_mem _ hv)
    obtain ⟨j, u, hget', rfl⟩ := mem_newPhis_iff.mp hmem
    refine ⟨j, u, hget', ?_, rfl⟩
    rintro rfl
    have hij : i = j := by
      have hi := (List.getElem?_eq_some_iff.mp hget).1
      exact (List.getElem?_inj hi h.places.nodup).mp (hget.trans hget'.symm)
    exact hnodup.2.1.1 (hij ▸ hv)
  have hs := (h.homes_get hget).1
  rw [heq, holdAfter_append, holdAfter_append, holdAfter, List.foldl_cons, ← holdAfter,
    h.lookup_holdAfter hs _ hlate, holdStep,
    h.inserted.lookup_eq_some_iff.mpr ⟨i, t, hget, rfl⟩]
  exact lookup_cons_self

/-- At the end of a block from which a slot is live, its cell holds what was found for it. -/
lemma InStep.cells_eq_at_end (hmade : MadeAtEntry p entry slots) (hb : Reached p entry b)
    (hedge : Edge p b t)
    (hin : InStep p entry doms slots placed walk held b (placed.function.insts b) st st')
    (hs : s ∈ slots) (hlive : t ∈ liveBlocks slots p doms s) :
    st.cells s.address = heldWord st'.regs s
      ((holdAfter slots p placed walk (held b) (placed.function.insts b)).lookup s.address) := by
  refine hin.cells_eq s hs (fun heq => ?_) ?_
  · rw [heq, h.insts_entry]
    exact hmade s hs
  · by_cases hstores : StoresIn slots p s (p.insts b)
    · obtain ⟨v, hv, x, hacc⟩ := hstores
      exact .inr ⟨v, h.mem_insts.mpr (.inl hv), x, hacc⟩
    · refine .inl ((h.pruned.liveSet h.dom s).closed t hlive b ?_ hstores)
      exact (h.pruned.predsAgree b t hb (hb.step hedge)).mpr hedge

lemma InStep.phiWord_eq (hg : Promoted p entry slots homes placed walk held g)
    (hb : Reached p entry b) (ht : Reached p entry t) (hturn : turn < (p.preds t).count b)
    (hin : InStep p entry doms slots placed walk held b (placed.function.insts b) st st')
    (hx : x ∈ p.phis t) (args : List I.Word) :
    (ssaMachine g args).phiWord b turn t st' x = (slotMachine slots p args).phiWord b turn t st x := by
  have hmem := p.phis_subset hx
  have hphi := p.instIs_of_mem_phis hx
  have hkept := h.not_isDropped_of_instIs hphi not_isSlotInst_of_isPhi
  obtain ⟨inst, hinst⟩ := Option.isSome_iff_exists.mp (h.pruned.values_exist t ht x hmem)
  rw [Function.instIs, hinst] at hphi
  obtain ⟨ty, operands, rfl⟩ : ∃ ty operands, inst = .phi ty operands := by
    cases inst <;> first | exact ⟨_, _, rfl⟩ | cases hphi
  have hinst' := hg.inst_kept t ht x hmem hkept
  have harity := h.pruned.phi_arity t ht x hx ty operands hinst
  obtain ⟨j, w, hincoming, hpred, harg⟩ := exists_incoming harity hturn
  obtain ⟨hlt, hprom, hav⟩ := h.phi_arg_ready hb ht hmem hinst hpred harg
  simp only [Machine.phiWord, ssaMachine, slotMachine, hinst, hinst', Option.map_some,
    Inst.mapOperands, hg.preds_eq, incoming_map, getElem?_map, hincoming, Option.elim_some]
  exact hin.regs_eq w hlt hprom hav

lemma InStep.newPhiWord_eq (hmade : MadeAtEntry p entry slots)
    (hg : Promoted p entry slots homes placed walk held g) (hb : Reached p entry b)
    (hedge : Edge p b t) (hturn : turn < (p.preds t).count b)
    (hin : InStep p entry doms slots placed walk held b (placed.function.insts b) st st')
    {i : Nat} (hget : homes[i]? = some (s, t)) (args : List I.Word) :
    (ssaMachine g args).phiWord b turn t st' ⟨p.values.size + i⟩ = st.cells s.address := by
  obtain ⟨operands, hinst, harity, hsources⟩ := hg.inst_phi i s t hget
  obtain ⟨j, w, hincoming, hpred, harg⟩ := exists_incoming harity hturn
  obtain ⟨w', harg', hsource⟩ := hsources j b hpred
  obtain rfl : w = w' := Option.some.inj (harg.symm.trans harg')
  simp only [Machine.phiWord, ssaMachine, hinst, hg.preds_eq, hincoming, Option.elim_some]
  rw [hsource.regs_eq hin.undefs, ← hin.cells_eq_at_end h hmade hb hedge (h.homes_get hget).1
    (h.places.needed _ (mem_of_getElem? hget))]

theorem InStep.enter (hmade : MadeAtEntry p entry slots)
    (hr : Renamed p entry doms slots homes placed walk held)
    (hg : Promoted p entry slots homes placed walk held g) (hb : Reached p entry b)
    (hedge : Edge p b t) (hturn : turn < (p.preds t).count b)
    (hin : InStep p entry doms slots placed walk held b (placed.function.insts b) st st')
    (args : List I.Word) :
    InStep p entry doms slots placed walk held t (p.phis t ++ newPhis p homes t)
      ((slotMachine slots p args).enter b turn t st) ((ssaMachine g args).enter b turn t st') := by
  have ht := hb.step hedge
  have hne : t ≠ entry := fun heq => h.pruned.no_edge_to_entry hb (heq ▸ hedge)
  have hphis : (ssaMachine g args).function.phis t = p.phis t ++ newPhis p homes t :=
    hg.phis_eq h ht hne
  have hsplit : placed.function.insts t = [] ++ placed.function.insts t := rfl
  have hsub : ∀ x ∈ p.phis t ++ newPhis p homes t, x ∈ placed.function.insts t := fun x hx => by
    rw [h.arranged]
    exact mem_append_left _ hx
  have hstay : ∀ w, Grounded p entry slots placed walk t [] w →
      ((ssaMachine g args).enter b turn t st').regs w = st'.regs w := by
    intro w hw
    refine if_neg fun hmem => ?_
    rw [hphis] at hmem
    exact hr.ne_of_grounded h ht hsplit (hsub w hmem) hw rfl
  have hold : ∀ x : Value, x.id < p.values.size → x ∈ p.phis t ++ newPhis p homes t →
      x ∈ p.phis t := by
    intro x hx hmem
    refine (mem_append.mp hmem).resolve_right fun hnew => ?_
    obtain ⟨i, s, -, rfl⟩ := mem_newPhis_iff.mp hnew
    dsimp only at hx
    omega
  refine ⟨hin.memory_eq, hin.trace_eq, fun x hx hprom hav => ?_, fun x hx => ?_, fun e he => ?_,
    fun s hs _ hlive => ?_⟩
  · rcases hav with hmem | ⟨d, hd, hmem⟩
    · have hmem := hold x hx hmem
      have hload : ¬ IsLoad slots p x := by
        rintro ⟨s, hacc⟩
        obtain ⟨-, ty, hload⟩ := (access?_eq_load_iff h.distinct).mp hacc
        have hphi := p.instIs_of_mem_phis hmem
        rw [Function.instIs, hload] at hphi
        cases hphi
      rw [hr.agrees.other x hload]
      refine (if_pos ?_).trans ((hin.phiWord_eq h hg hb ht hturn hmem args).trans (if_pos hmem).symm)
      rw [hphis]
      exact mem_append_left _ hmem
    · have hnot : x ∉ p.phis t := fun hphi =>
        hd.2 (h.pruned.home_unique d t (hd.1.reachable ht) ht x hmem (p.phis_subset hphi))
      rw [hstay _ ((hr.grounded h ht hsplit).2.2 d hd x hmem),
        hin.regs_eq x hx hprom (h.available_of_edge hedge hd hmem)]
      exact (if_neg hnot).symm
  · have hlt : x.id < p.values.size := by
      by_contra hge
      rw [Function.instIs, p.inst?_eq_none x (by omega)] at hx
      cases hx
    have hnot : x ∉ p.phis t := fun hmem => by
      rw [p.instIs_eq_false (p.instIs_of_mem_phis hmem) not_isSilent_of_isPhi] at hx
      cases hx
    have hnot' : x ∉ (ssaMachine g args).function.phis t := fun hmem =>
      hnot (hold x hlt (hphis ▸ hmem))
    exact (if_neg hnot').trans ((hin.silent x hx).trans (if_neg hnot).symm)
  · rw [hstay _ (hr.undef_grounded h he t []), hin.undefs e he]
  · have hlive : t ∈ liveBlocks slots p doms s := by
      refine hlive.resolve_right ?_
      rintro ⟨v, hv, x, hacc⟩
      have hlt := Function.lt_size_of_inst? ((access?_eq_store_iff h.distinct).mp hacc).2
      exact (h.untouched_phis ht s v (hold v hlt hv)).2 x hacc
    change st.cells s.address = _
    by_cases hhome : (s, t) ∈ homes
    · obtain ⟨i, hget⟩ := mem_iff_getElem?.mp hhome
      rw [h.lookup_newPhi hget]
      refine (hin.newPhiWord_eq h hmade hg hb hedge hturn hget args).symm.trans (if_pos ?_).symm
      rw [hphis]
      exact mem_append_right _ (mem_newPhis_iff.mpr ⟨i, s, hget, rfl⟩)
    · have hnew : Untouched slots p placed s (newPhis p homes t) := by
        refine h.untouched_newPhis (t := t) fun v hv => ?_
        obtain ⟨i, u, hget, rfl⟩ := mem_newPhis_iff.mp hv
        exact ⟨i, u, hget, fun heq => hhome (heq ▸ mem_of_getElem? hget), rfl⟩
      rw [holdAfter_append, h.lookup_holdAfter hs _ hnew,
        h.lookup_holdAfter hs _ (h.untouched_phis ht s), hin.cells_eq_at_end h hmade hb hedge hs hlive,
        hr.held_along h hs hb hedge hlive hhome]
      refine (heldWord_congr fun w hw => hstay w ?_).symm
      exact (hr.grounded h ht hsplit).1 _ (mem_of_lookup hw)

end

end Edges

end

end SsaLowering.Proofs
