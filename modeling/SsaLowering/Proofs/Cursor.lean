import SsaLowering.Proofs.FormedCode
import SsaLowering.Proofs.Paths

/-!
# Code behind a moving cursor

How a builder relates to an earlier one while a piece of code is put at the cursor of the earlier
one. Of the blocks that existed before, only the block of the cursor gets longer; the blocks that
have not been ended are listed; and a block is marked live only by an edge from a live one, so that
nothing becomes live behind a dead cursor. The relation composes, and holds for each single step.
-/

namespace SsaLowering.Proofs

open Ir List
open Ir.Builder (firstBlock Appended Created HeadLonger Joined)

/-- The code that a builder has made so far. -/
def codeOf (b : Builder) : Code where
  head := b.head
  code := b.code
  inst := b.function.inst?
  home v := (b.function.value? v).bind ValueInfo.block
  preds := b.function.preds
  params := b.function.params
  blocks := b.function.blocks.size
  values := b.function.values.size

section CodeOf

variable {b b' : Builder} {inst : Inst}

/-- What a new value changes, told for all values at once. -/
lemma inst_of_value_eq {v : Value} {home : Block}
    (h : b'.function.value? v = if v = b.next then some ⟨inst, some home, b.span, b.node⟩
      else b.function.value? v) :
    (codeOf b').inst v = ((codeOf b).addValue inst home).inst v ∧
      (codeOf b').home v = ((codeOf b).addValue inst home).home v := by
  simp only [codeOf, Code.addValue, Function.inst?, h, Function.update_apply]
  rw [show Code.next _ = b.next from rfl]
  split <;> exact ⟨rfl, rfl⟩

lemma codeOf_appended (h : Appended b inst b') : codeOf b' = (codeOf b).append b.current inst := by
  apply Code.ext
  · exact h.head_eq
  · funext block
    simp only [codeOf, Code.append, Function.update_apply, h.code_eq block]
    split
    next heq => rw [heq]; rfl
    next => rfl
  · funext v
    exact (inst_of_value_eq (h.value_eq v)).1
  · funext v
    exact (inst_of_value_eq (h.value_eq v)).2
  · funext t
    exact h.preds_eq t
  · exact h.params_eq
  · exact h.blocks_size
  · exact h.values_size

lemma codeOf_created (h : Created b b') : codeOf b' = (codeOf b).addBlock := by
  apply Code.ext
  · exact h.head_eq
  · funext block
    exact h.code_eq block
  · funext v
    simp only [codeOf, Code.addBlock, Function.inst?, h.value_eq v]
  · funext v
    simp only [codeOf, Code.addBlock, h.value_eq v]
  · funext t
    exact h.preds_eq t
  · exact h.params_eq
  · exact h.blocks_size
  · exact h.values_size

lemma codeOf_headLonger (h : HeadLonger b inst b') :
    codeOf b' = (codeOf b).addHead inst b'.function.params := by
  apply Code.ext
  · exact h.head_eq
  · funext block
    exact h.code_eq block
  · funext v
    exact (inst_of_value_eq (h.value_eq v)).1
  · funext v
    exact (inst_of_value_eq (h.value_eq v)).2
  · funext t
    exact h.preds_eq t
  · rfl
  · exact h.blocks_size
  · exact h.values_size

lemma codeOf_joined {target : Block} {ty : Ty} {args : List Value}
    (h : Joined b target ty args b') : codeOf b' = (codeOf b).join target ty args := by
  apply Code.ext
  · exact h.head_eq
  · funext block
    simp only [codeOf, Code.join, Function.update_apply, h.code_eq block]
    rfl
  · funext v
    exact (inst_of_value_eq (h.value_eq v)).1
  · funext v
    exact (inst_of_value_eq (h.value_eq v)).2
  · funext t
    exact h.preds_eq t
  · exact h.params_eq
  · exact h.blocks_size
  · exact h.values_size

end CodeOf

/-- A value can be used at the cursor. -/
abbrev AtHand (A : Avail) (b : Builder) (v : Value) : Prop :=
  AvailableAt A (codeOf b) b.current v

/-- A block that can still get instructions. -/
def Open (b : Builder) (t : Block) : Prop :=
  t.id < b.function.blocks.size ∧ ¬ (codeOf b).Ended t

/-- The marks follow the edges: those of the entry, and then all that come from marked blocks. -/
structure MarksFollow (b : Builder) : Prop where
  live_first : b.isLive firstBlock = true
  live_exists : ∀ t, b.isLive t = true → t.id < b.function.blocks.size
  live_edges : ∀ p t, b.isLive p = true → t ∈ (codeOf b).exits p → b.isLive t = true
  live_reached : ∀ t, b.isLive t = true → Reachable (fun p t => t ∈ (codeOf b).exits p) firstBlock t

/-- A builder whose code is well formed and whose marks follow the edges. -/
structure Coherent (A : Avail) (b : Builder) : Prop extends MarksFollow b where
  rooted : b.Rooted
  formed : Formed A (codeOf b)

/-- Code has been put at the cursor of an earlier builder. -/
structure Grown (A0 : Avail) (b0 : Builder) (A : Avail) (b : Builder) : Prop where
  extended : Extends A0 (codeOf b0) A (codeOf b)
  code_kept : ∀ t : Block, t.id < b0.function.blocks.size → t ≠ b0.current → b.code t = b0.code t
  phis_kept : ∀ t : Block, t.id < b0.function.blocks.size → ∀ v ∈ b.code t,
    (codeOf b).instIs Inst.isPhi v = true → v ∈ b0.code t
  header_eq : b.header = b0.header
  params_eq : b.function.params = b0.function.params
  live_mono : ∀ t, b0.isLive t = true → b.isLive t = true
  live_dead : b0.isReachable = false → ∀ t, b.isLive t = b0.isLive t

/-- Code has been put at the cursor of an earlier builder; of the new blocks and the block of the
cursor, only those in `P` have not been ended. -/
structure Underway (A0 : Avail) (b0 : Builder) (A : Avail) (b : Builder) (P : Set Block) : Prop
    extends Coherent A b, Grown A0 b0 A b where
  opened : ∀ t, Open b t → t ∈ P ∨ t.id < b0.function.blocks.size ∧ t ≠ b0.current

/-- A block to which code is put: that of the cursor, or a new one. -/
def Inside (b0 : Builder) (t : Block) : Prop :=
  t = b0.current ∨ b0.function.blocks.size ≤ t.id

/-- A new block that has no code yet; what is available at the earlier cursor will be available
there. -/
structure Planned (A0 : Avail) (b0 : Builder) (A : Avail) (b : Builder) (t : Block) : Prop where
  exists_block : t.id < b.function.blocks.size
  new : b0.function.blocks.size ≤ t.id
  empty : b.code t = []
  avail : ∀ v, A t v ↔ AtHand A0 b0 v
  usable : ∀ v, A t v → Usable (codeOf b) v

/-- A block to which control may go from the cursor. -/
structure Target (A : Avail) (b : Builder) (t : Block) : Prop where
  ne_first : t ≠ firstBlock
  exists_block : t.id < b.function.blocks.size
  no_phi : ∀ v ∈ b.code t, (codeOf b).instIs Inst.isPhi v = false
  avail : ∀ v, A t v → AtHand A b v
  live : b.code t ≠ [] → b.isReachable = true → b.isLive t = true

variable {A0 A A' : Avail} {b0 b b' : Builder} {P Q : Set Block} {t : Block}

/-! ### What has grown -/

lemma Grown.ended_iff (h : Grown A0 b0 A b) (hb : Coherent A0 b0)
    (ht : t.id < b0.function.blocks.size) (hne : t ≠ b0.current) :
    (codeOf b).Ended t ↔ (codeOf b0).Ended t :=
  hb.formed.ended_congr h.extended (h.code_kept t ht hne)

lemma Grown.open_kept (h : Grown A0 b0 A b) (hb : Coherent A0 b0) (ht : Open b0 t)
    (hne : t ≠ b0.current) : Open b t :=
  ⟨ht.1.trans_le h.extended.blocks_le, fun hended => ht.2 ((h.ended_iff hb ht.1 hne).mp hended)⟩

lemma Grown.dead_place (h : Grown A0 b0 A b) (hb : Coherent A0 b0)
    (ht : Inside b0 t) (hlive : b.isLive t = true) : b0.isReachable = true := by
  by_contra hdead
  have hdead := Bool.eq_false_of_not_eq_true hdead
  rw [h.live_dead hdead t] at hlive
  rcases ht with rfl | ht
  · rw [Builder.isReachable, hlive] at hdead
    cases hdead
  · exact absurd (hb.live_exists t hlive) (by omega)

lemma Grown.trans (hb0 : Coherent A0 b0) (h : Grown A0 b0 A b) (hb : Coherent A b)
    (hplace : Inside b0 b.current) (h' : Grown A b A' b') : Grown A0 b0 A' b' where
  extended := hb0.formed.trans_extends h.extended h'.extended
  code_kept t ht hne := by
    have hcurrent : t ≠ b.current := by
      rintro rfl
      rcases hplace with heq | hle
      · exact hne heq
      · omega
    exact (h'.code_kept t (ht.trans_le h.extended.blocks_le) hcurrent).trans (h.code_kept t ht hne)
  phis_kept t ht v hv hphi := by
    have hv' := h'.phis_kept t (ht.trans_le h.extended.blocks_le) v hv hphi
    have hlt := hb.formed.lt_of_mem_code hv'
    rw [h'.extended.instIs_eq hlt] at hphi
    exact h.phis_kept t ht v hv' hphi
  header_eq := h'.header_eq.trans h.header_eq
  params_eq := h'.params_eq.trans h.params_eq
  live_mono t ht := h'.live_mono t (h.live_mono t ht)
  live_dead hdead t := by
    have hdead' : b.isReachable = false := by
      by_contra hlive
      have := h.dead_place hb0 hplace (Bool.eq_true_of_not_eq_false hlive)
      rw [hdead] at this
      cases this
    rw [h'.live_dead hdead' t, h.live_dead hdead t]

lemma Inside.trans (hb : Grown A0 b0 A b) (hplace : Inside b0 b.current) (ht : Inside b t) :
    Inside b0 t := by
  rcases ht with rfl | ht
  · exact hplace
  · exact .inr (hb.extended.blocks_le.trans ht)

lemma Inside.ne {u : Block} (hu : Inside b u) (ht : t.id < b.function.blocks.size)
    (hne : t ≠ b.current) : t ≠ u := by
  rcases hu with rfl | hu
  · exact hne
  · rintro rfl
    omega

namespace Planned

lemma isOpen (h : Planned A0 b0 A b t) : Open b t := by
  refine ⟨h.exists_block, ?_⟩
  rintro ⟨v, hlast, -⟩
  have hmem : v ∈ b.code t := mem_of_getLast? hlast
  rw [h.empty] at hmem
  cases hmem

lemma ne_first (h : Planned A0 b0 A b t) (hb0 : Coherent A0 b0) : t ≠ firstBlock := by
  rintro rfl
  exact absurd hb0.formed.nonempty (Nat.not_lt.mpr h.new)

lemma of_extends (h : Planned A0 b0 A b t) (hg : Extends A (codeOf b) A' (codeOf b'))
    (hcode : b'.code t = b.code t) : Planned A0 b0 A' b' t where
  exists_block := h.exists_block.trans_le hg.blocks_le
  new := h.new
  empty := hcode.trans h.empty
  avail v := by
    rw [hg.avail_eq t h.exists_block]
    exact h.avail v
  usable v hv := by
    rw [hg.avail_eq t h.exists_block] at hv
    exact hg.usable (h.usable v hv)

lemma kept (h : Planned A0 b0 A b t) (hne : t ≠ b.current) (hg : Grown A b A' b') :
    Planned A0 b0 A' b' t :=
  h.of_extends hg.extended (hg.code_kept t h.exists_block hne)

/-- Control may go to a new block from where all that it relies on is available. -/
lemma target (h : Planned A0 b0 A b t) (hb0 : Coherent A0 b0)
    (havail : ∀ v, AtHand A0 b0 v → AtHand A b v) : Target A b t where
  ne_first := h.ne_first hb0
  exists_block := h.exists_block
  no_phi v hv := by
    rw [h.empty] at hv
    cases hv
  avail v hv := havail v ((h.avail v).mp hv)
  live hcode := absurd h.empty hcode

end Planned

lemma Underway.trans (hb0 : Coherent A0 b0) (h : Underway A0 b0 A b P)
    (hplace : Inside b0 b.current) (h' : Underway A b A' b' Q) :
    Underway A0 b0 A' b' (P \ {b.current} ∪ Q) where
  toCoherent := h'.toCoherent
  toGrown := h.toGrown.trans hb0 h.toCoherent hplace h'.toGrown
  opened t ht := by
    rcases h'.opened t ht with hQ | ⟨hlt, hne⟩
    · exact .inl (.inr hQ)
    · have hopen : Open b t :=
        ⟨hlt, fun hended => ht.2 ((h'.ended_iff h.toCoherent hlt hne).mpr hended)⟩
      exact (h.opened t hopen).imp_left fun hP => .inl ⟨hP, hne⟩

lemma Underway.mono (h : Underway A0 b0 A b P) (hPQ : P ⊆ Q) : Underway A0 b0 A b Q :=
  { h with opened := fun t ht => (h.opened t ht).imp_left fun hP => hPQ hP }

/-! ### Single steps -/

lemma isTerminated_eq_false (hb : Coherent A b) (hopen : Open b b.current) :
    b.isTerminated = false := by
  by_contra hterm
  have hsome := Bool.eq_true_of_not_eq_false hterm
  rw [Builder.isTerminated, Function.terminator?_isSome_iff] at hsome
  obtain ⟨v, hlast, hist⟩ := hsome
  rw [Builder.insts_eq, getLast?_append] at hlast
  cases hcode : (b.code b.current).getLast? with
  | some w =>
    rw [hcode] at hlast
    obtain rfl : w = v := Option.some.inj hlast
    exact hopen.2 ⟨w, hcode, hist⟩
  | none =>
    -- behind an empty code stands the head, where there is no terminator
    rw [hcode, Option.none_or] at hlast
    split at hlast
    · have hmem : v ∈ b.head := mem_of_getLast? hlast
      obtain ⟨slots, heq, hslots⟩ := hb.formed.head_eq
      rw [show b.head = _ from heq, mem_append] at hmem
      rw [Function.instIs] at hist
      rcases hmem with hmem | hmem
      · obtain ⟨i, hi⟩ := mem_iff_getElem?.mp hmem
        obtain ⟨ty, hinst⟩ := hb.formed.params_eq i v hi
        rw [show b.function.inst? v = _ from hinst] at hist
        cases hist
      · obtain ⟨ty, pinned, hinst⟩ := hslots v hmem
        rw [show b.function.inst? v = _ from hinst] at hist
        cases hist
    · cases hlast

lemma MarksFollow.congr (hb : MarksFollow b) (hlive : ∀ t, b'.isLive t = b.isLive t)
    (hsize : b.function.blocks.size ≤ b'.function.blocks.size)
    (hexits : ∀ p, (codeOf b').exits p = (codeOf b).exits p) : MarksFollow b' where
  live_first := (hlive _).trans hb.live_first
  live_exists t ht := (hb.live_exists t (hlive t ▸ ht)).trans_le hsize
  live_edges p t hp ht := (hlive t).trans (hb.live_edges p t (hlive p ▸ hp) (hexits p ▸ ht))
  live_reached t ht := by
    simp only [hexits]
    exact hb.live_reached t (hlive t ▸ ht)

section Append

variable {inst : Inst}

section

variable (hb : Coherent A b) (hopen : Open b b.current) (h : Appended b inst b')
include hb hopen h

lemma Coherent.append
    (hphi : inst.isPhi = false) (hplain : isHeadInst inst = false)
    (hoperands : ∀ w ∈ inst.operands, OperandAt A (codeOf b) b.current inst w)
    (htargets : ∀ t ∈ inst.successors, Target A b t) : Coherent A b' ∧ Grown A b A b' := by
  have hcode := codeOf_appended h
  have hformed : Formed A (codeOf b') := by
    rw [hcode]
    exact hb.formed.append hopen.1 hopen.2 hphi hplain hoperands fun t ht =>
      ⟨(htargets t ht).ne_first, (htargets t ht).exists_block, (htargets t ht).no_phi,
        (htargets t ht).avail⟩
  have hextends : Extends A (codeOf b) A (codeOf b') := by
    rw [hcode]
    exact Formed.extends_append A fun t ht => (htargets t ht).no_phi
  have hmono (t : Block) (ht : b.isLive t = true) : b'.isLive t = true := by
    rw [h.live_eq, ht, Bool.true_or]
  have hexits (p : Block) : (codeOf b').exits p =
      if p = b.current then inst.successors else (codeOf b).exits p := by
    rw [hcode, hb.formed.exits_append]
  have hkept {t : Block} (ht : Reachable (fun p t => t ∈ (codeOf b).exits p) firstBlock t) :
      Reachable (fun p t => t ∈ (codeOf b').exits p) firstBlock t := by
    refine ht.induction .at_entry fun p t _ hedge ih => ih.step ?_
    rw [hexits, if_neg]
    · exact hedge
    · rintro rfl
      rw [hb.formed.exits_eq_nil hopen.2] at hedge
      cases hedge
  refine ⟨⟨⟨hmono _ hb.live_first, fun t ht => ?_, fun p t hp ht => ?_, fun t ht => ?_⟩, h.rooted,
    hformed⟩, hextends, fun t _ hne => ?_, fun t _ v hv hist => ?_, h.header_eq, h.params_eq, hmono,
    fun hdead t => ?_⟩
  · rw [h.live_eq, Bool.or_eq_true, Bool.and_eq_true, decide_eq_true_eq] at ht
    rw [h.blocks_size]
    rcases ht with ht | ⟨ht, -⟩
    · exact hb.live_exists t ht
    · exact (htargets t ht).exists_block
  · rw [hexits] at ht
    rw [h.live_eq, Bool.or_eq_true, Bool.and_eq_true, decide_eq_true_eq] at hp
    split at ht
    · next heq =>
      have hreach : b.isReachable = true := by
        rcases hp with hp | ⟨-, hp⟩
        · rwa [heq] at hp
        · exact hp
      rw [h.live_eq, hreach, decide_eq_true ht, Bool.and_self, Bool.or_true]
    · rcases hp with hp | ⟨hp, hreach⟩
      · exact hmono t (hb.live_edges p t hp ht)
      · -- the block becomes live now, so it has code only if it was live already
        by_cases hended : (codeOf b).Ended p
        · obtain ⟨v, hlast, -⟩ := id hended
          have hcode : b.code p ≠ [] := fun hnil => by
            rw [show (codeOf b).code p = [] from hnil] at hlast
            cases hlast
          exact hmono t (hb.live_edges p t ((htargets p hp).live hcode hreach) ht)
        · rw [hb.formed.exits_eq_nil hended] at ht
          cases ht
  · rw [h.live_eq, Bool.or_eq_true, Bool.and_eq_true, decide_eq_true_eq] at ht
    rcases ht with ht | ⟨ht, hreach⟩
    · exact hkept (hb.live_reached t ht)
    · refine (hkept (hb.live_reached _ hreach)).step ?_
      rwa [hexits, if_pos rfl]
  · rw [h.code_eq, if_neg hne]
  · rw [h.code_eq] at hv
    split at hv
    · rcases mem_append.mp hv with hv | hv
      · exact hv
      · rw [mem_singleton.mp hv, Code.instIs, hcode] at hist
        rw [show ((codeOf b).append b.current inst).inst b.next = some inst from
          Formed.inst_addValue_next (codeOf b) inst b.current] at hist
        rw [Option.any_some, hphi] at hist
        cases hist
    · exact hv
  · rw [h.live_eq, hdead, Bool.and_false, Bool.or_false]

lemma Coherent.insert
    (hphi : inst.isPhi = false) (hplain : isHeadInst inst = false)
    (hterm : inst.isTerminator = false)
    (hoperands : ∀ w ∈ inst.operands, OperandAt A (codeOf b) b.current inst w) :
    Underway A b A b' {b.current} ∧ Open b' b.current := by
  have hnone := Inst.successors_eq_nil_of_not_isTerminator hterm
  obtain ⟨hb', hg⟩ := hb.append hopen h hphi hplain hoperands (by simp [hnone])
  refine ⟨⟨hb', hg, fun t ht => ?_⟩, hopen.1.trans_le hg.extended.blocks_le, ?_⟩
  · by_cases hne : t = b.current
    · exact .inl hne
    · exact .inr ⟨h.blocks_size ▸ ht.1, hne⟩
  · rintro ⟨v, hlast, hist⟩
    rw [codeOf_appended h, Formed.code_append_self, getLast?_concat] at hlast
    obtain rfl := Option.some.inj hlast
    rw [codeOf_appended h, Code.instIs,
      show ((codeOf b).append b.current inst).inst _ = some inst from
        Formed.inst_addValue_next (codeOf b) inst b.current, Option.any_some, hterm] at hist
    cases hist

lemma Coherent.finish
    (hterm : inst.isTerminator = true) (hoperands : ∀ w ∈ inst.operands, AtHand A b w)
    (htargets : ∀ t ∈ inst.successors, Target A b t) : Underway A b A b' ∅ := by
  have hphi : inst.isPhi = false := by cases inst <;> first | rfl | cases hterm
  have hplain : isHeadInst inst = false := by cases inst <;> first | rfl | cases hterm
  obtain ⟨hb', hg⟩ := hb.append hopen h hphi hplain (fun w hw => .inl (hoperands w hw)) htargets
  refine ⟨hb', hg, fun t ht => .inr ⟨h.blocks_size ▸ ht.1, ?_⟩⟩
  rintro rfl
  refine ht.2 ⟨b.next, ?_, ?_⟩
  · rw [codeOf_appended h, Formed.code_append_self]
    exact getLast?_concat
  · rw [codeOf_appended h, Code.instIs,
      show ((codeOf b).append b.current inst).inst b.next = some inst from
        Formed.inst_addValue_next (codeOf b) inst b.current]
    exact hterm

end

end Append

lemma Coherent.create (hb : Coherent A b) (h : Created b b') {known : Value → Prop}
    (hknown : ∀ v, known v → v.id < b.function.values.size) :
    Coherent (Function.update A ⟨b.function.blocks.size⟩ known) b' ∧
      Grown A b (Function.update A ⟨b.function.blocks.size⟩ known) b' := by
  have hcode := codeOf_created h
  have hextends : Extends A (codeOf b) (Function.update A ⟨b.function.blocks.size⟩ known)
      (codeOf b') := by
    rw [hcode]
    exact Formed.extends_addBlock (codeOf b) A known
  have hexits (p : Block) : (codeOf b').exits p = (codeOf b).exits p := by rw [hcode]; rfl
  have hformed : Formed (Function.update A ⟨b.function.blocks.size⟩ known) (codeOf b') := by
    rw [hcode]
    exact hb.formed.addBlock hknown
  exact ⟨⟨hb.toMarksFollow.congr h.live_eq hextends.blocks_le hexits, h.rooted, hformed⟩,
    hextends, fun t _ _ => h.code_eq t, fun t _ v hv _ => h.code_eq t ▸ hv, h.header_eq, h.params_eq,
    fun t ht => (h.live_eq t).trans ht, fun _ t => h.live_eq t⟩

lemma Underway.create (hb0 : Coherent A0 b0) (hb : Underway A0 b0 A b P)
    (hplace : Inside b0 b.current) (h : Created b b') :
    ∃ A', Underway A0 b0 A' b' (P ∪ {⟨b.function.blocks.size⟩}) ∧ Grown A b A' b' ∧
      Planned A0 b0 A' b' ⟨b.function.blocks.size⟩ ∧ ∀ t, Open b t → Open b' t := by
  have hknown (v : Value) (hv : AtHand A0 b0 v) : v.id < b.function.values.size :=
    hv.2.1.trans_le hb.extended.values_le
  obtain ⟨hb', hg⟩ := hb.toCoherent.create h hknown
  have hended (t : Block) := hb.formed.ended_congr hg.extended (h.code_eq t)
  refine ⟨_, ⟨hb', hb.toGrown.trans hb0 hb.toCoherent hplace hg, fun t ht => ?_⟩, hg,
    ⟨?_, hb.extended.blocks_le, ?_, fun v => ?_, fun v hv => ?_⟩,
    fun t ht => ⟨?_, fun h => ht.2 ((hended t).mp h)⟩⟩
  · by_cases hnew : t.id = b.function.blocks.size
    · exact .inl (.inr (Block.ext hnew))
    · have hlt : t.id < b.function.blocks.size := by
        have := h.blocks_size ▸ ht.1
        omega
      exact (hb.opened t ⟨hlt, fun h => ht.2 ((hended t).mpr h)⟩).imp_left .inl
  · rw [h.blocks_size]
    exact Nat.lt_succ_self _
  · exact (h.code_eq _).trans (Builder.code_eq_nil (Nat.le_refl b.function.blocks.size))
  · rw [Function.update_self]
  · rw [Function.update_self] at hv
    exact hg.extended.usable (hb.extended.usable hv.2)
  · exact ht.1.trans_le hg.extended.blocks_le

lemma Coherent.slot (hb : Coherent A b) {ty : Ty} {pinned : Bool}
    (h : HeadLonger b (.alloca ty pinned) b') (hparams : b'.function.params = b.function.params) :
    Underway A b A b' {b.current} := by
  have hcode : codeOf b' = (codeOf b).addSlot ty pinned := by
    rw [codeOf_headLonger h, hparams]
    rfl
  have hextends : Extends A (codeOf b) A (codeOf b') := by
    rw [hcode]
    exact Formed.extends_addSlot A (codeOf b) ty pinned
  have hformed : Formed A (codeOf b') := by
    rw [hcode]
    exact hb.formed.addSlot ty pinned
  have hfollows := hb.toMarksFollow.congr h.live_eq hextends.blocks_le fun p =>
    hb.formed.exits_congr (h.code_eq p) hextends.inst_eq
  refine ⟨⟨hfollows, h.rooted, hformed⟩,
    ⟨hextends, fun t _ _ => h.code_eq t, fun t _ v hv _ => h.code_eq t ▸ hv, h.header_eq, hparams,
      fun t ht => (h.live_eq t).trans ht, fun _ t => h.live_eq t⟩, fun t ht => ?_⟩
  by_cases hne : t = b.current
  · exact .inl hne
  · exact .inr ⟨h.blocks_size ▸ ht.1, hne⟩

/-- A phi is put into the empty block of the cursor, which came with the code, once all edges into
the block are made. -/
lemma Underway.join (hb0 : Coherent A0 b0) (hb : Underway A0 b0 A b P) {ty : Ty}
    {args : List Value} (h : Joined b b.current ty args b') (hopen : Open b b.current)
    (hnew : b0.function.blocks.size ≤ b.current.id) (hempty : b.code b.current = [])
    (hlen : args.length = (b.function.preds b.current).length)
    (hargs : ∀ edge ∈ (b.function.preds b.current).zip args,
      AvailableAt A (codeOf b) edge.1 edge.2) :
    Underway A0 b0 A b' P ∧ Open b' b.current := by
  have hne : b.current ≠ firstBlock := by
    intro heq
    rw [heq] at hnew
    exact absurd hb0.formed.nonempty (Nat.not_lt.mpr hnew)
  have hcode := codeOf_joined h
  have hextends : Extends A (codeOf b) A (codeOf b') := by
    rw [hcode]
    exact Formed.extends_join A hempty
  have hformed : Formed A (codeOf b') := by
    rw [hcode]
    exact hb.formed.join hopen.1 hne hempty hlen hargs
  have hother {t : Block} (ht : t ≠ b.current) : b'.code t = b.code t := by
    rw [h.code_eq, if_neg ht]
  have hold {t : Block} (ht : t.id < b0.function.blocks.size) : t ≠ b.current := by
    rintro rfl
    omega
  have hfollows := hb.toMarksFollow.congr h.live_eq hextends.blocks_le fun p => by
    rw [hcode, hb.formed.exits_join hempty]
  refine ⟨⟨⟨hfollows, h.rooted, hformed⟩,
    ⟨hb0.formed.trans_extends hb.extended hextends, fun t ht hne => ?_, fun t ht v hv hist => ?_,
      h.header_eq.trans hb.header_eq, h.params_eq.trans hb.params_eq, fun t ht => ?_, fun hdead t => ?_⟩,
    fun t ht => ?_⟩, hopen.1.trans_le hextends.blocks_le, ?_⟩
  · exact (hother (hold ht)).trans (hb.code_kept t ht hne)
  · rw [hother (hold ht)] at hv
    rw [hextends.instIs_eq (hb.formed.lt_of_mem_code hv)] at hist
    exact hb.phis_kept t ht v hv hist
  · rw [h.live_eq]
    exact hb.live_mono t ht
  · rw [h.live_eq]
    exact hb.live_dead hdead t
  · by_cases hcurrent : t = b.current
    · rw [hcurrent]
      exact hb.opened b.current hopen
    · have hended := hb.formed.ended_congr hextends (hother hcurrent)
      exact hb.opened t ⟨h.blocks_size ▸ ht.1, fun h => ht.2 (hended.mpr h)⟩
  · rintro ⟨v, hlast, hist⟩
    rw [hcode, Formed.code_join_self, getLast?_singleton] at hlast
    obtain rfl := Option.some.inj hlast
    rw [hcode, Code.instIs, show ((codeOf b).join b.current ty args).inst _ = some (.phi ty args) from
      Formed.inst_addValue_next (codeOf b) (.phi ty args) b.current] at hist
    cases hist

end SsaLowering.Proofs
