import SsaLowering.Proofs.StraightCode

/-!
# Branches

The steps of lowering that end blocks and begin others. A new block is planned with what is
available where the construct begins; control may go to it from anywhere in the construct, and
lowering may go on in it at any time before it is ended.
-/

namespace SsaLowering.Proofs

open Ir Lowering List
open SsaLowering.Source (TypeTable)
open Ir.Builder (firstBlock Appended Created HeadLonger Joined)

variable {K : Setting} {A0 A A' A'' : Avail} {s0 s s' s'' : LowerState} {P Q : Set Block}
  {t u : Block} {α : Type} {inst : Inst} {value : Option Value} {w w' : Way} {l : Bool} {c : Course}
  {f g : Flow} {ty : Ty}

/-! ### Moving the cursor -/

def movedTo (s : LowerState) (t : Block) : LowerState :=
  { s with builder := s.builder.switchTo t }

lemma Ends.switchTo_bind {f : Unit → LowerM α} {Q : α → LowerState → Prop}
    (h : Ends K (f ()) (movedTo s t) Q) : Ends K (Lowering.switchTo t >>= f) s Q :=
  h

lemma Coherent.switchTo {b : Builder} (h : Coherent A b) (t : Block) : Coherent A (b.switchTo t) :=
  ⟨⟨h.live_first, h.live_exists, h.live_edges, h.live_reached⟩, ⟨h.rooted.layout_eq,
    h.rooted.nonempty, h.rooted.head_le, h.rooted.known, h.rooted.untagged⟩, h.formed⟩

lemma Staged.moved (h : Staged K A0 s0 A s P w) (ht : Inside s0.builder t)
    (hlive : s.builder.isLive t = (s0.builder.isReachable && l)) :
    Staged K A0 s0 A (movedTo s t) P { w with behind := l } where
  toCoherent := h.toCoherent.switchTo t
  extended := h.extended
  code_kept := h.code_kept
  phis_kept := h.phis_kept
  header_eq := h.header_eq
  params_eq := h.params_eq
  live_mono := h.live_mono
  live_dead := h.live_dead
  opened := h.opened
  place := ht
  loops_eq := h.loops_eq
  live_eq := h.live_eq
  reach_eq := hlive
  told := h.told
  scopes := h.scopes
  typed ht := ⟨(h.typed ht).ret_eq, (h.typed ht).slots, (h.typed ht).proper⟩

/-! ### Blocks of a construct -/

/-- A new block of a construct that has no code yet; `l` says whether control gets to it if it gets to
the construct. -/
structure Awaits (A0 : Avail) (s0 : LowerState) (A : Avail) (s : LowerState) (t : Block) (l : Bool) :
    Prop extends Planned A0 s0.builder A s.builder t where
  live_eq : s.builder.isLive t = (s0.builder.isReachable && l)
  spared : Spared s0 s t

namespace Awaits

lemma inside (h : Awaits A0 s0 A s t l) : Inside s0.builder t :=
  .inr h.new

lemma moved (h : Awaits A0 s0 A s t l) (u : Block) : Awaits A0 s0 A (movedTo s u) t l :=
  ⟨⟨h.exists_block, h.new, h.empty, h.avail, h.usable⟩, h.live_eq, h.spared⟩

lemma available (h : Awaits A0 s0 A s t l) :
    ∀ v, AtHand A0 s0.builder v → AtHand A (movedTo s t).builder v :=
  fun v hv => ⟨.inl ((h.avail v).mpr hv), h.usable v ((h.avail v).mpr hv)⟩

/-- Code is put elsewhere; there may be jumps to the block in it. -/
lemma after (h : Awaits A0 s0 A s t l) (hstaged : Staged K A0 s0 A s P w)
    (h' : Staged K A s A' s' Q w') (hne : t ≠ s.builder.current) :
    Awaits A0 s0 A' s' t (l || w.behind && w'.marks t) where
  toPlanned := h.toPlanned.kept hne h'.toGrown
  live_eq := by
    rw [h'.live_eq t h.exists_block, h.live_eq, hstaged.reach_eq, Bool.and_assoc,
      ← Bool.and_or_distrib_left]
  spared := h.spared.trans (h'.told.mono fun u answer hnew heq => by
    subst heq
    obtain ⟨-, -, hdead⟩ := hnew
    by_contra hfalse
    rcases hdead (Bool.eq_false_of_not_eq_true hfalse) with hge | ⟨hcurrent, -⟩
    · exact absurd h.exists_block (Nat.not_lt.mpr hge)
    · exact hne hcurrent)

lemma kept (h : Awaits A0 s0 A s t l) (hstaged : Staged K A0 s0 A s P w)
    (h' : Staged K A s A' s' Q w') (hne : t ≠ s.builder.current) (hmarks : w'.marks t = false) :
    Awaits A0 s0 A' s' t l := by
  have hafter := h.after hstaged h' hne
  rwa [hmarks, Bool.and_false, Bool.or_false] at hafter

/-- Jumps in a piece of code do not go to new blocks of the construct around it. -/
lemma through (h0 : Ready K A0 s0) (h : Awaits A0 s0 A s t l) (hstaged : Staged K A0 s0 A s P w)
    (h' : Lowers K A s A' s' (c.way s.loops)) (hne : t ≠ s.builder.current) :
    Awaits A0 s0 A' s' t l := by
  refine h.kept hstaged h'.toStaged hne (Bool.eq_false_of_not_eq_true fun hmarks => ?_)
  rw [hstaged.loops_eq] at hmarks
  exact absurd (h0.marks_old c hmarks) (Nat.not_lt.mpr h.new)

lemma enter (h0 : Ready K A0 s0) (hstaged : Staged K A0 s0 A s P w) (hbinds : w.binds = false)
    (h : Awaits A0 s0 A s t l) : Ready K A (movedTo s t) :=
  (hstaged.moved h.inside h.live_eq).ready h0 h.isOpen h.available fun _ _ hlookup =>
    .inl (hstaged.lookup_eq hbinds hlookup)

/-- Once all of a construct is ended but one block, lowering goes on there. -/
lemma resume (hstaged : Staged K A0 s0 A s {t} w) (h : Awaits A0 s0 A s t l) :
    Lowers K A0 s0 A (movedTo s t) { w with behind := l } :=
  ⟨hstaged.moved h.inside h.live_eq, h.isOpen, h.available⟩

end Awaits

/-- A block was made for a construct. -/
structure Makes (K : Setting) (A0 : Avail) (s0 : LowerState) (A : Avail) (s : LowerState)
    (P : Set Block) (w : Way) (t : Block) (A' : Avail) (s' : LowerState) : Prop where
  staged : Staged K A0 s0 A' s' (P ∪ {t}) w
  awaits : Awaits A0 s0 A' s' t false
  grown : Grown A s.builder A' s'.builder
  opens : ∀ u, Open s.builder u → Open s'.builder u
  codes : ∀ u, s'.builder.code u = s.builder.code u
  id_eq : t.id = s.builder.function.blocks.size
  preds_eq : ∀ u, s'.builder.function.preds u = s.builder.function.preds u
  live_eq : ∀ u, s'.builder.isLive u = s.builder.isLive u
  current_eq : s'.builder.current = s.builder.current
  scopes_eq : s'.scopes = s.scopes
  notes_eq : s'.notes = s.notes

lemma createBlock_makes (h0 : Ready K A0 s0) (h : Staged K A0 s0 A s P w) (name : String) :
    Ends K (createBlock name) s fun t s' => ∃ A', Makes K A0 s0 A s P w t A' s' := by
  obtain ⟨hblock, hcreated⟩ := Builder.createBlock_created h.rooted name
  obtain ⟨A', hunder, hgrown, hplanned, hopens⟩ :=
    h.toUnderway.create h0.coherent h.place hcreated
  have hdead : s.builder.isLive ⟨s.builder.function.blocks.size⟩ = false := by
    refine Bool.eq_false_of_not_eq_true fun hlive => ?_
    exact absurd (h.live_exists _ hlive) (Nat.lt_irrefl _)
  refine ⟨A', ⟨hunder, hcreated.current_eq ▸ h.place, h.loops_eq, fun t ht => ?_, ?_, ?_, h.scopes,
    fun ht => ?_⟩, ⟨hplanned, ?_, ?_⟩, hgrown, hopens, hcreated.code_eq, congrArg Block.id hblock,
    hcreated.preds_eq, hcreated.live_eq, hcreated.current_eq, rfl, rfl⟩
  · exact (hcreated.live_eq t).trans (h.live_eq t ht)
  · exact (congrArg _ hcreated.current_eq).trans ((hcreated.live_eq _).trans h.reach_eq)
  · refine h.told.mono fun t answer hold => ⟨hold.1.trans_le hgrown.extended.blocks_le, ?_, hold.2.2⟩
    exact (hcreated.live_eq t).trans hold.2.1
  · refine (h.typed ht).head h.toCoherent hgrown.extended hgrown.ret_eq hcreated.live_eq
      hcreated.code_eq fun v held pinned hv hge => ?_
    obtain ⟨info, hinfo, -⟩ := Option.map_eq_some_iff.mp hv
    have hlt : v.id < (s.builder.createBlock name).2.function.values.size :=
      (Array.getElem?_eq_some_iff.mp hinfo).1
    exact absurd (hcreated.values_size ▸ hlt) (Nat.not_lt.mpr hge)
  · exact ((hcreated.live_eq _).trans hdead).trans (Bool.and_false _).symm
  · refine h.told.mono fun t answer hold heq => ?_
    subst heq
    exact absurd hold.1 (Nat.lt_irrefl _)

namespace Makes

lemma fresh (h : Makes K A0 s0 A s P w t A' s') (hu : u.id < s.builder.function.blocks.size) :
    u ≠ t := by
  rintro rfl
  exact absurd h.id_eq (Nat.ne_of_lt hu)

lemma keeps (h : Makes K A0 s0 A s P w t A' s') (hu : Awaits A0 s0 A s u l) :
    Awaits A0 s0 A' s' u l :=
  ⟨hu.toPlanned.of_extends h.grown.extended (h.codes u), (h.live_eq u).trans hu.live_eq,
    hu.spared.trans (.of_eq h.notes_eq)⟩

end Makes

/-! ### Ending blocks -/

lemma finish_ends (h : Ready K A s) (hterm : inst.isTerminator = true)
    (hoperands : ∀ v ∈ inst.operands, ∃ ty, Operand K ty A s v)
    (htargets : ∀ t ∈ inst.successors, Target A s.builder t)
    (htypes : K.typed → s.builder.isReachable = true →
      TypeRule s.builder.function K.ctx.env.layouts inst) :
    Ends K (emit inst) s fun _ s' => Staged K A s A s' ∅
      ⟨true, fun t => decide (t ∈ inst.successors), false⟩ ∧ Appended s.builder inst s'.builder := by
  have hhead : isHeadInst inst = false := by cases inst <;> first | rfl | cases hterm
  refine Ends.map ((insert_ends h fun t ht => (htargets t ht).exists_block).mono ?_)
  rintro v s' ⟨-, b', rfl, happ⟩
  have hunder := h.coherent.finish h.isOpen happ hterm
    (fun v hv => (hoperands v hv).elim fun _ hv => hv.atHand) htargets
  exact ⟨staged_appended h happ hunder hhead htargets fun ht hr =>
    proper_of_operands hoperands ht hr (htypes ht hr), happ⟩

lemma stop_ends (h : Ready K A s) (hterm : inst.isTerminator = true) (hnone : inst.successors = [])
    (hoperands : ∀ v ∈ inst.operands, ∃ ty, Operand K ty A s v)
    (htypes : K.typed → s.builder.isReachable = true →
      TypeRule s.builder.function K.ctx.env.layouts inst) :
    Ends K (emit inst) s fun _ s' => Staged K A s A s' ∅ (Course.pass.way s.loops) :=
  (finish_ends h hterm hoperands (by simp [hnone]) htypes).mono fun _ _ hended =>
    hended.1.congr (fun _ => rfl) (by simp [hnone, Course.way, Course.pass]) id

/-- Behind a construct that control does not leave, lowering goes on in a new block. -/
lemma enterDeadBlock_ends (h0 : Ready K A0 s0) (h : Staged K A0 s0 A s ∅ w) :
    Ends K enterDeadBlock s fun _ s' => ∃ A', Lowers K A0 s0 A' s' { w with behind := false } := by
  refine (createBlock_makes h0 h "dead").bind fun t s' ⟨A', hmakes⟩ => ?_
  exact ⟨A', hmakes.awaits.resume (hmakes.staged.mono (by simp))⟩

/-- A block is ended by jumps out of the loops around it. -/
lemma leave_completes (h : Ready K A s) (hterm : inst.isTerminator = true)
    (hoperands : ∀ v ∈ inst.operands, ∃ ty, Operand K ty A s v)
    (htargets : ∀ t ∈ inst.successors, Target A s.builder t)
    (htypes : K.typed → s.builder.isReachable = true →
      TypeRule s.builder.function K.ctx.env.layouts inst) (hbehind : f.behind = false)
    (hmarks : ∀ t, decide (t ∈ inst.successors) = f.leadsTo s.loops t) :
    Completes K ⟨f, false⟩ A s (do emit inst; enterDeadBlock) fun _ _ _ => True := by
  refine .of_lowers h ((finish_ends h hterm hoperands htargets htypes).bind
    fun _ s' hended => enterDeadBlock_ends h hended.1) ?_ rfl
  rintro _ s' ⟨A', hlow⟩
  exact ⟨A', hlow.congr (fun _ => hbehind.symm) (fun t _ => hmarks t) id, trivial⟩

/-- A value that a function can return. -/
def Returned (K : Setting) (A : Avail) (s : LowerState) (v : Value) : Prop :=
  ∃ ty, Operand K ty A s v ∧ (K.typed → s.builder.isReachable = true →
    Valued K.ctx.env K.ctx.body.ret → ty = K.ctx.env.ty K.ctx.body.ret)

lemma emitRet_ends (h : Ready K A s) (hvalue : ∀ v ∈ value, Returned K A s v)
    (hret : K.typed → (K.ctx.env.ty K.ctx.body.ret = .void ↔ value = none)) :
    Ends K (emit (.ret value)) s fun _ s' => Staged K A s A s' ∅ (Course.pass.way s.loops) := by
  refine stop_ends h rfl rfl (fun v hv => ?_) fun ht hr => ?_
  · obtain ⟨ty, hv, -⟩ := hvalue v (by simpa [Inst.operands] using hv)
    exact ⟨ty, hv⟩
  · cases value with
    | none => exact (h.typed ht).ret_eq.trans ((hret ht).mpr rfl)
    | some v =>
      obtain ⟨ty, hv, hty⟩ := hvalue v rfl
      have hvalued : Valued K.ctx.env K.ctx.body.ret := fun hvoid =>
        Option.some_ne_none v ((hret ht).mp hvoid)
      exact (hv.hasTy ht hr).1.trans ((hty ht hr hvalued).trans (h.typed ht).ret_eq.symm)

lemma emitReturn_ends (h : Ready K A s) (hvalue : ∀ v ∈ value, Returned K A s v) :
    Ends K (emitReturn value) s fun _ s' =>
      ∃ A', Staged K A s A' s' ∅ (Course.pass.way s.loops) := by
  refine Ends.get_bind ?_
  split
  · next hvoid =>
    exact (emitRet_ends h (by simp) fun ht => by simp [← (h.typed ht).ret_eq, hvoid]).mono
      fun _ s' hended => ⟨A, hended⟩
  · next hret =>
    exact (emitRet_ends h hvalue fun ht => by simpa [← (h.typed ht).ret_eq] using hret).mono
      fun _ s' hended => ⟨A, hended⟩
  · next hret =>
    refine Ends.bind (insert_const h rfl rfl hret fun _ => trivial) fun v s' ⟨A', hlow, h', hv⟩ => ?_
    refine (emitRet_ends h' ?_ fun ht => by simpa [← (h.typed ht).ret_eq] using hret).mono
      fun _ s'' hended => ⟨A', ?_⟩
    · rintro _ ⟨⟩
      exact ⟨_, hv, fun ht _ _ => (h.typed ht).ret_eq⟩
    · exact (hlow.toStaged.trans_pass h.coherent hended).mono (by simp)

lemma return_completes (h : Ready K A s) (hvalue : ∀ v ∈ value, Returned K A s v) :
    Completes K ⟨.stop, false⟩ A s (do emitReturn value; enterDeadBlock) fun _ _ _ => True := by
  refine .of_lowers h ((emitReturn_ends h hvalue).bind fun _ s' ⟨A', hended⟩ =>
    enterDeadBlock_ends h hended) (fun _ s' ⟨A', hlow⟩ => ⟨A', ?_, trivial⟩) rfl
  exact hlow.congr (fun _ => rfl) (by simp [Course.way, Course.pass]) id

lemma jump_completes (h : Ready K A s) (span : Span) (next : Bool) :
    Completes K ⟨⟨false, !next, next⟩, false⟩ A s (jump span next) fun _ _ _ => True := by
  refine Ends.get_bind ?_
  split
  · next targets loops hloops =>
    obtain ⟨hexit, hnext⟩ := h.loops targets (by rw [hloops]; exact mem_cons_self)
    refine leave_completes h rfl (by simp [Inst.operands]) (fun t ht => ?_) (fun _ _ => trivial) rfl
      fun t => ?_
    · obtain rfl : t = _ := mem_singleton.mp ht
      cases next
      · exact hexit
      · exact hnext
    · cases next <;> simp [hloops, Inst.successors, Flow.leadsTo]
  · next hloops =>
    have hend {A' : Avail} {s' : LowerState} (h' : Ready K A' s') (hnone : s'.loops = []) :
        Completes K ⟨⟨false, !next, next⟩, false⟩ A' s' (do emit .unreachable; enterDeadBlock)
          fun _ _ _ => True :=
      leave_completes h' rfl (by simp [Inst.operands]) (by simp [Inst.successors])
        (fun _ _ => trivial) rfl fun t => by simp [hnone, Inst.successors, Flow.leadsTo]
    cases next <;> exact Completes.step h (report_completes h _ _ _) fun _ A' s' hlow h' _ =>
      hend h' (hlow.loops_eq.trans hloops)

lemma lowerCall_completes (h : Ready K A s) (ty : Nat) (callee : String) {args : List Value}
    (hargs : ∀ v ∈ args, ∃ ty, Operand K ty A s v) :
    Completes K ⟨if ty = TypeTable.never then .stop else .pass, false⟩ A s
      (lowerCall K.ctx ty callee args) (Gives K (K.ctx.env.ty ty)) := by
  refine .step h (insert_plain hargs h rfl fun _ _ => trivial) fun result A' s' _ h' hresult => ?_
  split
  · have hleave : Completes K ⟨.stop, false⟩ A' s' (do emit .unreachable; enterDeadBlock)
        fun _ _ _ => True :=
      leave_completes h' rfl (by simp [Inst.operands]) (by simp [Inst.successors])
        (fun _ _ => trivial) rfl (by simp [Inst.successors])
    rw [← bind_assoc]
    refine hleave.last h' fun _ A'' s'' hlow h'' _ => .pure h'' (Gives.of_dead ?_)
    rw [hlow.reach_eq]
    exact Bool.and_false _
  · refine .pure h' ?_
    split
    · next hvoid => exact ⟨by simp, fun _ _ _ => hvoid⟩
    · next hvalued => exact .of_some ⟨hresult.1 rfl, fun _ _ => ⟨ty_of_inst hresult.2, hvalued⟩⟩

/-! ### Arms -/

/-- The blocks in which some arms end. -/
def blocksOf (arms : List ArmEnd) : Set Block :=
  {t | ∃ arm ∈ arms, arm.block = t}

@[simp] lemma blocksOf_nil : blocksOf [] = ∅ := by
  simp [blocksOf]

@[simp] lemma blocksOf_cons (arm : ArmEnd) (arms : List ArmEnd) :
    blocksOf (arm :: arms) = {arm.block} ∪ blocksOf arms := by
  ext t
  simp [blocksOf, eq_comm]

@[simp] lemma blocksOf_append (arms more : List ArmEnd) :
    blocksOf (arms ++ more) = blocksOf arms ∪ blocksOf more := by
  ext t
  simp [blocksOf, or_and_right, exists_or]

/-- The end of an arm that control gets to; it waits for the block where the arms of a construct
meet. -/
structure Joins (K : Setting) (ty : Ty) (A0 : Avail) (s0 : LowerState) (A : Avail) (s : LowerState)
    (arm : ArmEnd) : Prop where
  isOpen : Open s.builder arm.block
  inside : Inside s0.builder arm.block
  avail : ∀ v, AtHand A0 s0.builder v → AtHand A (movedTo s arm.block).builder v
  value : ty ≠ .void → Gives K ty A (movedTo s arm.block) arm.value
  live : s.builder.isLive arm.block = true

namespace Joins

variable {arm : ArmEnd}

lemma kept (h : Joins K ty A0 s0 A s arm) (hopen : Open s'.builder arm.block)
    (hg : Grown A (movedTo s u).builder A' s'.builder) : Joins K ty A0 s0 A' s' arm := by
  have hkept (v : Value) (hv : AtHand A (movedTo s arm.block).builder v) :
      AtHand A' (movedTo s' arm.block).builder v :=
    hg.extended.availableAt h.isOpen.1 hv
  refine ⟨hopen, h.inside, fun v hv => hkept v (h.avail v hv), fun hty => ?_, hg.live_mono _ h.live⟩
  have hvalue := h.value hty
  refine ⟨fun v hv => ⟨hkept v (hvalue.operand v hv).atHand, fun ht _ => ?_⟩, fun hk _ =>
    hvalue.missing hk h.live⟩
  exact hg.extended.hasTy ((hvalue.operand v hv).hasTy ht h.live)

lemma of_later (h : Joins K ty A s A' s' arm) (hstaged : Staged K A0 s0 A s P w)
    (havail : ∀ v, AtHand A0 s0.builder v → AtHand A s.builder v) : Joins K ty A0 s0 A' s' arm :=
  { h with
    inside := .trans hstaged.toGrown hstaged.place h.inside
    avail := fun v hv => h.avail v (havail v hv) }

/-- Control gets to a construct if it gets behind an arm of it. -/
lemma reach (h : Joins K ty A0 s0 A s arm) (h0 : Ready K A0 s0) (hstaged : Staged K A0 s0 A s P w) :
    s0.builder.isReachable = true :=
  hstaged.dead_place h0.coherent h.inside h.live

lemma enter (h : Joins K ty A0 s0 A s arm) (h0 : Ready K A0 s0) (hstaged : Staged K A0 s0 A s P w) :
    Staged K A0 s0 A (movedTo s arm.block) P { w with behind := true } :=
  hstaged.moved h.inside (by rw [h.live, h.reach h0 hstaged]; rfl)

end Joins

lemma sealDeadBlock_ends (h : Ready K A s) : Ends K sealDeadBlock s fun _ s' =>
    Staged K A s A s' ∅ (Course.pass.way s.loops) := by
  have hopen := isTerminated_eq_false h.coherent h.isOpen
  change Ends K (if !s.builder.isTerminated then _ else _) s _
  rw [hopen, Bool.not_false, if_pos rfl]
  exact stop_ends h rfl rfl nofun fun _ _ => trivial

/-- An arm ends at the cursor. -/
lemma finishArm_ends (h0 : Ready K A0 s0) (hstaged : Staged K A0 s0 A s P w) (h : Ready K A s)
    (havail : ∀ v, AtHand A0 s0.builder v → AtHand A s.builder v)
    (hvalue : ty ≠ .void → Gives K ty A s value) : Ends K (finishArm value) s fun result s' =>
      Staged K A0 s0 A s' (P \ {s.builder.current} ∪ blocksOf result.toList) w ∧
      Staged K A s A s' (blocksOf result.toList) (Course.pass.way s.loops) ∧
      result.isSome = s.builder.isReachable ∧
      ∀ arm ∈ result, arm.block = s.builder.current ∧ Joins K ty A0 s0 A s' arm := by
  refine Ends.bind (isReachable_completes h) ?_
  rintro answer s' ⟨A', hlow, h', rfl, hbuilder, rfl⟩
  have hlive : s'.builder.isReachable = s.builder.isReachable := by rw [hbuilder]
  split
  · next hreach =>
    have hlocal : Staged K A' s A' s' (blocksOf [⟨s'.builder.current, value⟩]) _ :=
      hlow.toStaged.mono (by simp)
    refine ⟨hstaged.trans_pass h0.coherent hlocal, hlocal, hreach.symm, ?_⟩
    rintro arm ⟨⟩
    refine ⟨congrArg Builder.current hbuilder, h'.isOpen,
      .trans hstaged.toGrown hstaged.place hlow.place,
      fun v hv => hlow.avail v (havail v hv), fun hty => hlow.gives (hvalue hty), ?_⟩
    exact hlive.trans hreach
  · next hdead =>
    refine (sealDeadBlock_ends h').bind fun _ s'' hsealed => ?_
    have hlocal : Staged K A' s A' s'' (blocksOf (none : Option ArmEnd).toList) _ :=
      (hlow.toStaged.trans_pass h.coherent hsealed).mono (by simp)
    exact ⟨hstaged.trans_pass h0.coherent hlocal, hlocal, (Bool.eq_false_of_not_eq_true hdead).symm,
      nofun⟩

/-! ### Joining arms -/

lemma joinArm_ends (h0 : Ready K A0 s0) (h : Staged K A0 s0 A s P w) (hbinds : w.binds = false)
    (ht : Awaits A0 s0 A s t l) {arm : ArmEnd} (harm : Joins K ty A0 s0 A s arm)
    (hne : arm.block ≠ t) (span : Span) (node : Nat) :
    Ends K (joinArm span node ty t arm) s fun value s' => ∃ A',
      Staged K A0 s0 A' s' (P \ {arm.block}) { w with behind := true } ∧ Awaits A0 s0 A' s' t true ∧
      Grown A (movedTo s arm.block).builder A' s'.builder ∧
      s'.builder.function.preds t = s.builder.function.preds t ++ [arm.block] ∧
      (ty ≠ .void → ∃ v, value = some v ∧ AvailableAt A' (codeOf s'.builder) arm.block v ∧
        (K.typed → HasTy s'.builder.function v ty)) := by
  have hmoved := harm.enter h0 h
  have hreach := harm.reach h0 h
  have hready : Ready K A (movedTo s arm.block) :=
    hmoved.ready h0 harm.isOpen harm.avail fun _ _ hlookup => .inl (h.lookup_eq hbinds hlookup)
  -- the edge, once the value that flows along it is there
  have hedge {A2 : Avail} {s2 : LowerState}
      (hlow : Lowers K A (movedTo s arm.block) A2 s2 (Course.pass.way s.loops))
      (hcurrent : s2.builder.current = arm.block)
      (hpreds : s2.builder.function.preds t = s.builder.function.preds t) {value : Option Value}
      (hvalue : ty ≠ .void → ∃ v, value = some v ∧ Operand K ty A2 s2 v) :
      Ends K (do emit (.br t); return value) s2 fun value s' => ∃ A',
        Staged K A0 s0 A' s' (P \ {arm.block}) { w with behind := true } ∧
        Awaits A0 s0 A' s' t true ∧ Grown A (movedTo s arm.block).builder A' s'.builder ∧
        s'.builder.function.preds t = s.builder.function.preds t ++ [arm.block] ∧
        (ty ≠ .void → ∃ v, value = some v ∧ AvailableAt A' (codeOf s'.builder) arm.block v ∧
          (K.typed → HasTy s'.builder.function v ty)) := by
    have h2 := hlow.ready hready rfl
    have ht2 := (ht.moved arm.block).through h0 hmoved hlow hne.symm
    have havail2 (v : Value) (hv : AtHand A0 s0.builder v) : AtHand A2 s2.builder v :=
      hlow.avail v (harm.avail v hv)
    have hstaged2 := hmoved.trans_pass h0.coherent hlow.toStaged
    have hreach2 : s2.builder.isReachable = true := by
      rw [hstaged2.reach_eq, hreach]
      rfl
    refine Ends.bind (finish_ends h2 rfl nofun (fun u hu => ?_) fun _ _ => trivial) ?_
    · obtain rfl : u = t := mem_singleton.mp hu
      exact ht2.toPlanned.target h0.coherent havail2
    · rintro _ s' ⟨hended, happ⟩
      have ht3 := ht2.after hstaged2 hended (hcurrent ▸ hne.symm)
      have hstaged3 := hstaged2.trans h0.coherent hended fun u _ hu _ => by
        obtain rfl : u = t := by simpa [Inst.successors] using hu
        exact .inr ht2.spared
      refine .pure ⟨A2, (hstaged3.mono ?_).congr (fun _ => rfl) (fun u hu => ?_) ?_, ?_,
        hlow.toGrown.trans hready.coherent hlow.toCoherent hlow.place hended.toGrown, ?_,
        fun hty => ?_⟩
      · rw [hcurrent]
        rintro u ((⟨hu | rfl, hu'⟩) | hu)
        · exact hu
        · exact absurd rfl hu'
        · exact hu.elim
      · have hold : u ≠ t := by
          rintro rfl
          exact absurd hu (Nat.not_lt.mpr ht.new)
        simp [Way.andThen, Inst.successors, hold]
      · simp [Way.andThen]
      · simpa [Inst.successors] using ht3
      · rw [happ.preds_eq, hpreds, hcurrent]
        simp [Inst.successors]
      · obtain ⟨v, rfl, hv⟩ := hvalue hty
        have hatHand := hv.atHand
        rw [AtHand, hcurrent] at hatHand
        exact ⟨v, rfl, hended.extended.availableAt (hcurrent ▸ h2.isOpen.1) hatHand,
          fun ht => hended.extended.hasTy (hv.hasTy ht hreach2)⟩
  refine .switchTo_bind (Ends.bind (locate_completes hready span node) ?_)
  rintro _ s1 ⟨A1, hlow1, h1, rfl, rfl⟩
  split
  · exact hedge hlow1 rfl rfl fun hty => absurd rfl hty
  · next value _ hvalue =>
    refine hedge hlow1 rfl rfl fun hty => ⟨value, rfl, hlow1.operand ?_⟩
    exact (harm.value hty).operand value hvalue
  · next ty _ _ hty _ =>
    rw [bind_map_left]
    refine Ends.bind (Ends.and (insert_const h1 rfl rfl hty fun _ => trivial)
      (insert_ends h1 (by simp [Inst.successors]))) ?_
    rintro v s2 ⟨⟨A2, hlow2, h2, hv⟩, -, b2, rfl, happ⟩
    refine hedge (hlow1.trans_pass hready hlow2) happ.current_eq ?_ fun _ => ⟨v, rfl, hv⟩
    exact (happ.preds_eq t).trans (by simp [Inst.successors]; rfl)

/-- Arms of a construct that wait for the block where they meet. -/
structure Arms (K : Setting) (ty : Ty) (A0 : Avail) (s0 : LowerState) (A : Avail) (s : LowerState)
    (arms : List ArmEnd) : Prop where
  nodup : (arms.map ArmEnd.block).Nodup
  joins : ∀ arm ∈ arms, Joins K ty A0 s0 A s arm

/-- All arms go to the block where they meet: the edges into it come from their blocks, with the
values that flow along them. -/
lemma joinArms_ends (h0 : Ready K A0 s0) {arms : List ArmEnd}
    (h : Staged K A0 s0 A s (blocksOf arms ∪ {t}) w) (hbinds : w.binds = false)
    (ht : Awaits A0 s0 A s t l) (harms : Arms K ty A0 s0 A s arms)
    (hne : ∀ arm ∈ arms, arm.block ≠ t) (span : Span) (node : Nat) :
    Ends K (arms.mapM (joinArm span node ty t)) s fun values s' => ∃ A' behind,
      Staged K A0 s0 A' s' {t} { w with behind } ∧ Awaits A0 s0 A' s' t (l || !arms.isEmpty) ∧
      Extends A (codeOf s.builder) A' (codeOf s'.builder) ∧
      s'.builder.function.preds t = s.builder.function.preds t ++ arms.map ArmEnd.block ∧
      (ty ≠ .void → ∃ vs, values = vs.map some ∧ vs.length = arms.length ∧
        (∀ edge ∈ (arms.map ArmEnd.block).zip vs,
          AvailableAt A' (codeOf s'.builder) edge.1 edge.2) ∧
        (K.typed → ∀ v ∈ vs, HasTy s'.builder.function v ty)) := by
  induction arms generalizing A s w l with
  | nil =>
    refine ⟨A, w.behind, h.mono (by simp), by simpa using ht, .refl _ _, by simp, fun _ =>
      ⟨[], rfl, rfl, by simp, by simp⟩⟩
  | cons arm arms ih =>
    have hmem : arm ∈ arm :: arms := mem_cons_self
    rw [mapM_cons]
    refine (joinArm_ends h0 h hbinds ht (harms.joins arm hmem) (hne arm hmem) span node).bind ?_
    rintro value s1 ⟨A1, hstaged1, ht1, hgrown, hpreds1, hvalue⟩
    have hrest : Arms K ty A0 s0 A1 s1 arms := by
      obtain ⟨hnot, hnodup⟩ := nodup_cons.mp harms.nodup
      refine ⟨hnodup, fun other hother => ?_⟩
      have hjoins := harms.joins other (mem_cons_of_mem _ hother)
      refine hjoins.kept (hgrown.open_kept (h.toCoherent.switchTo arm.block) hjoins.isOpen ?_) hgrown
      exact fun heq => hnot (mem_map.mpr ⟨other, hother, heq⟩)
    have hstaged : Staged K A0 s0 A1 s1 (blocksOf arms ∪ {t}) { w with behind := true } := by
      refine hstaged1.mono ?_
      rintro u ⟨hu, hne⟩
      rw [blocksOf_cons] at hu
      exact hu.imp_left fun hu => hu.resolve_left hne
    refine (ih hstaged hbinds ht1 hrest fun other hother =>
      hne other (mem_cons_of_mem _ hother)).bind ?_
    rintro values s2 ⟨A2, behind, hstaged2, ht2, hextends, hpreds2, hvalues⟩
    have hlt := (harms.joins arm hmem).isOpen.1.trans_le hgrown.extended.blocks_le
    refine .pure ⟨A2, behind, hstaged2, by simpa using ht2,
      h.formed.trans_extends hgrown.extended hextends, ?_, fun hty => ?_⟩
    · rw [hpreds2, hpreds1, append_assoc]
      rfl
    · obtain ⟨v, rfl, hv, hvty⟩ := hvalue hty
      obtain ⟨vs, rfl, hlen, hvs, hvstys⟩ := hvalues hty
      refine ⟨v :: vs, rfl, by simp [hlen], fun edge hedge => ?_, fun ht =>
        forall_mem_cons.mpr ⟨hextends.hasTy (hvty ht), hvstys ht⟩⟩
      rw [map_cons, zip_cons_cons, mem_cons] at hedge
      rcases hedge with rfl | hedge
      · exact hextends.availableAt hlt hv
      · exact hvs edge hedge

lemma inst?_joined {b b' : Builder} {args : List Value} (h : Joined b t ty args b') :
    b'.function.inst? b.next = some (.phi ty args) := by
  rw [Function.inst?, h.value_eq, if_pos rfl]
  rfl

lemma available_joined {b b' : Builder} {args : List Value} (h : Joined b b.current ty args b') :
    AtHand A b' b.next := by
  refine ⟨.inr (.inl ?_), ?_, ?_⟩
  · change b.next ∈ b'.code b'.current
    rw [h.current_eq, h.code_eq, if_pos rfl]
    exact mem_singleton_self _
  · change b.function.values.size < b'.function.values.size
    rw [h.values_size]
    exact Nat.lt_succ_self _
  · rw [Code.instIs, Code.instIs, show (codeOf b').inst b.next = _ from inst?_joined h]
    exact ⟨rfl, rfl⟩

lemma mergeArms_ends (h0 : Ready K A0 s0) {arms : List ArmEnd} {ty : Nat}
    (h : Staged K A0 s0 A s (blocksOf arms) w) (hbinds : w.binds = false)
    (harms : Arms K (K.ctx.env.ty ty) A0 s0 A s arms) (span : Span) (node : Nat) (name : String) :
    Ends K (mergeArms K.ctx span node ty name arms) s fun result s' =>
      ∃ A', Lowers K A0 s0 A' s' { w with behind := !arms.isEmpty } ∧
        Gives K (K.ctx.env.ty ty) A' s' result := by
  match arms with
  | [] =>
    rw [blocksOf_nil] at h
    refine (enterDeadBlock_ends h0 h).bind fun _ s' ⟨A', hlow⟩ => .pure ⟨A', hlow, .of_dead ?_⟩
    rw [hlow.reach_eq]
    exact Bool.and_false _
  | [arm] =>
    have harm := harms.joins arm (mem_singleton_self arm)
    refine .switchTo_bind (.pure ⟨A, ⟨(harm.enter h0 h).mono (by simp [movedTo, Builder.switchTo]),
      harm.isOpen, harm.avail⟩, ?_⟩)
    split
    · next hvoid => exact ⟨nofun, fun _ _ _ => hvoid⟩
    · next hvalued => exact harm.value hvalued
  | first :: second :: rest =>
    rw [mergeArms]
    · refine (createBlock_makes h0 h name).bind ?_
      rintro target s1 ⟨A1, hmakes⟩
      have harms1 : Arms K (K.ctx.env.ty ty) A0 s0 A1 s1 (first :: second :: rest) :=
        ⟨harms.nodup, fun arm harm => (harms.joins arm harm).kept (u := s.builder.current)
          (hmakes.opens _ (harms.joins arm harm).isOpen) hmakes.grown⟩
      have hne (arm : ArmEnd) (harm : arm ∈ first :: second :: rest) : arm.block ≠ target :=
        hmakes.fresh (harms.joins arm harm).isOpen.1
      refine (joinArms_ends h0 hmakes.staged hbinds hmakes.awaits harms1 hne span node).bind ?_
      rintro values s2 ⟨A2, behind, hstaged, htarget, -, hpreds, hvalues⟩
      have hlow : Lowers K A0 s0 A2 (movedTo s2 target) _ := htarget.resume hstaged
      refine .switchTo_bind ?_
      split
      · next hvoid => exact .pure ⟨A2, hlow, nofun, fun _ _ _ => hvoid⟩
      · next hty =>
        obtain ⟨vs, rfl, hlen, hflow, htys⟩ := hvalues hty
        rw [filterMap_map, Function.id_comp, filterMap_some]
        have hnone : s.builder.function.block? target = none :=
          Array.getElem?_eq_none hmakes.id_eq.ge
        have hpreds' : s2.builder.function.preds target =
            (first :: second :: rest).map ArmEnd.block := by
          rw [hpreds, hmakes.preds_eq, Function.preds, hnone]
          rfl
        obtain ⟨b', hphi, hjoined⟩ := Builder.phi_joined hlow.rooted (K.ctx.env.ty ty) vs
          htarget.exists_block (htarget.toPlanned.ne_first h0.coherent) htarget.empty
        have hargs : ∀ edge ∈ (s2.builder.function.preds target).zip vs,
            AvailableAt A2 (codeOf s2.builder) edge.1 edge.2 := by
          rw [hpreds']
          exact hflow
        have hlen' : vs.length = (s2.builder.function.preds target).length := by
          rw [hlen, hpreds', length_map]
        obtain ⟨hunder, hopen⟩ := hlow.toUnderway.join h0.coherent hjoined htarget.isOpen
          htarget.new htarget.empty hlen' hargs
        have hextends : Extends A2 (codeOf (movedTo s2 target).builder) A2 (codeOf b') := by
          rw [codeOf_joined hjoined]
          exact Formed.extends_join A2 htarget.empty
        have hcurrent : b'.current = target := hjoined.current_eq
        refine Ends.map (Ends.tryBuild hphi ⟨A2, ⟨⟨hcurrent ▸ hunder, hcurrent ▸ htarget.inside,
          hlow.loops_eq, fun t ht => ?_, ?_, ?_, hlow.scopes, fun ht => ?_⟩, hcurrent ▸ hopen,
          fun v hv => ⟨.inl ?_, hunder.extended.usable hv.2⟩⟩, .of_some ⟨available_joined hjoined,
          fun ht _ => ⟨?_, hty⟩⟩⟩)
        · exact (hjoined.live_eq t).trans (hlow.live_eq t ht)
        · exact (congrArg _ hcurrent).trans ((hjoined.live_eq target).trans hlow.reach_eq)
        · refine hlow.told.mono fun t answer hold =>
            ⟨hold.1.trans_le hextends.blocks_le, (hjoined.live_eq t).trans hold.2.1, hold.2.2⟩
        · exact (hlow.typed ht).join hlow.toCoherent hjoined hextends fun _ => htys ht
        · exact hcurrent ▸ (htarget.avail v).mpr hv
        · exact ty_of_inst (inst?_joined hjoined)
    · simp
    · simp

/-! ### Branching -/

/-- Blocks have been made for a construct at the cursor. -/
structure Drafted (K : Setting) (A0 : Avail) (s0 : LowerState) (w : Way) (A : Avail) (s : LowerState)
    (S : Set Block) : Prop where
  staged : Staged K A0 s0 A s ({s.builder.current} ∪ S) w
  isOpen : Open s.builder s.builder.current
  avail : ∀ v, AtHand A0 s0.builder v → AtHand A s.builder v
  awaits : ∀ t ∈ S, Awaits A0 s0 A s t false
  current_notMem : s.builder.current ∉ S

lemma Lowers.drafted (h : Lowers K A0 s0 A s w) : Drafted K A0 s0 w A s ∅ :=
  ⟨h.toStaged.mono (by simp), h.isOpen, h.avail, nofun, id⟩

namespace Drafted

variable {S : Set Block}

lemma createBlock (h0 : Ready K A0 s0) (h : Drafted K A0 s0 w A s S) (name : String) :
    Ends K (Lowering.createBlock name) s fun t s' => ∃ A', Drafted K A0 s0 w A' s' (S ∪ {t}) ∧
      t ∉ S ∧ ∀ ty v, Operand K ty A s v → Operand K ty A' s' v := by
  refine (createBlock_makes h0 h.staged name).mono fun t s' ⟨A', hmakes⟩ => ?_
  have hcurrent := hmakes.current_eq
  have hkept (v : Value) (hv : AtHand A s.builder v) : AtHand A' s'.builder v := by
    rw [AtHand, hcurrent]
    exact hmakes.grown.extended.availableAt h.isOpen.1 hv
  refine ⟨A', ⟨hmakes.staged.mono ?_, ?_, fun v hv => hkept v (h.avail v hv), ?_, ?_⟩, fun ht => ?_,
    fun ty v hv => ⟨hkept v hv.atHand, fun ht hr => hmakes.grown.extended.hasTy (hv.hasTy ht ?_)⟩⟩
  · rw [hcurrent, Set.union_assoc]
  · rw [hcurrent]
    exact hmakes.opens _ h.isOpen
  · rintro u (hu | rfl)
    · exact hmakes.keeps (h.awaits u hu)
    · exact hmakes.awaits
  · rw [hcurrent]
    rintro (hmem | heq)
    · exact h.current_notMem hmem
    · exact hmakes.fresh h.isOpen.1 heq
  · exact hmakes.fresh (h.awaits t ht).exists_block rfl
  · rw [Builder.isReachable, ← hmakes.live_eq, ← hcurrent]
    exact hr

lemma finish (h0 : Ready K A0 s0) (h : Drafted K A0 s0 w A s S) (hbinds : w.binds = false)
    (hterm : inst.isTerminator = true) (hoperands : ∀ v ∈ inst.operands, ∃ ty, Operand K ty A s v)
    (htargets : ∀ t ∈ inst.successors, t ∈ S)
    (htypes : K.typed → s.builder.isReachable = true →
      TypeRule s.builder.function K.ctx.env.layouts inst) :
    Ends K (emit inst) s fun _ s' => Staged K A0 s0 A s' S w ∧
      ∀ t ∈ S, Awaits A0 s0 A s' t (w.behind && decide (t ∈ inst.successors)) := by
  have hready : Ready K A s := h.staged.ready h0 h.isOpen h.avail fun _ _ hlookup =>
    .inl (h.staged.lookup_eq hbinds hlookup)
  refine (finish_ends hready hterm hoperands (fun t ht =>
    (h.awaits t (htargets t ht)).toPlanned.target h0.coherent h.avail) htypes).mono
      fun _ s' ⟨hended, _⟩ => ⟨?_, fun t ht => ?_⟩
  · have hstaged := h.staged.trans h0.coherent hended fun t _ ht _ =>
      .inr (h.awaits t (htargets t (by simpa using ht))).spared
    refine (hstaged.mono ?_).congr (by simp [Way.andThen]) (fun t ht => ?_) (by simp [Way.andThen])
    · rintro t (⟨ht | ht, hne⟩ | ht)
      · exact absurd ht hne
      · exact ht
      · exact ht.elim
    · have hnot : t ∉ inst.successors := fun hmem =>
        absurd ht (Nat.not_lt.mpr (h.awaits t (htargets t hmem)).new)
      simp [Way.andThen, hnot]
  · simpa using (h.awaits t ht).after h.staged hended fun heq => h.current_notMem (heq ▸ ht)

end Drafted

/-- Control has gone from the cursor to one of two new blocks. -/
structure Forked (K : Setting) (A0 : Avail) (s0 : LowerState) (w : Way) (A : Avail) (s : LowerState)
    (first second : Block) : Prop where
  staged : Staged K A0 s0 A s {first, second} w
  awaits_first : Awaits A0 s0 A s first w.behind
  awaits_second : Awaits A0 s0 A s second w.behind
  ne : second ≠ first

lemma fork_ends (h0 : Ready K A0 s0) (h : Lowers K A0 s0 A s w) (hbinds : w.binds = false)
    {test : Value} (htest : Operand K .i1 A s test) (name other : String)
    {k : Block → Block → LowerM α} {Q : α → LowerState → Prop}
    (hk : ∀ first second A' s', Forked K A0 s0 w A' s' first second → Ends K (k first second) s' Q) :
    Ends K (do
      let first ← createBlock name
      let second ← createBlock other
      emit (.condBr test first second)
      k first second) s Q := by
  refine (h.drafted.createBlock h0 name).bind fun first s1 ⟨A1, hfirst, _, hkept1⟩ => ?_
  refine (hfirst.createBlock h0 other).bind fun second s2 ⟨A2, hsecond, hne, hkept2⟩ => ?_
  have htest := hkept2 _ _ (hkept1 _ _ htest)
  refine Ends.bind (hsecond.finish h0 hbinds rfl (uses_one htest) (by simp [Inst.successors])
    fun ht hr => (htest.hasTy ht hr).1) fun _ s3 ⟨hstaged, hawaits⟩ => hk first second A2 s3 ?_
  refine ⟨hstaged.mono (by simp [Set.subset_def]), ?_, ?_, by simpa using hne⟩
  · simpa [Inst.successors] using hawaits first (by simp)
  · simpa [Inst.successors] using hawaits second (by simp)

/-- An arm is lowered in a block of a construct. -/
structure ArmRun (K : Setting) (ty : Ty) (A0 : Avail) (s0 : LowerState) (A : Avail) (s : LowerState)
    (P : Set Block) (t : Block) (armEnd : Option ArmEnd) (A' : Avail) (s' : LowerState) (w : Way) :
    Prop where
  staged : Staged K A0 s0 A' s' (P \ {t} ∪ blocksOf armEnd.toList) w
  isSome_eq : armEnd.isSome = s'.builder.isReachable
  joins : ∀ arm ∈ armEnd, Joins K ty A0 s0 A' s' arm ∧ Inside (movedTo s t).builder arm.block
  grown : Grown A (movedTo s t).builder A' s'.builder
  awaits : ∀ u l, u ≠ t → Awaits A0 s0 A s u l → Awaits A0 s0 A' s' u l

lemma branchArm_ends (h0 : Ready K A0 s0) (h : Staged K A0 s0 A s P w) (hbinds : w.binds = false)
    (ht : Awaits A0 s0 A s t l) {x : LowerM (Option Value)}
    (hx : Completes K ⟨f, false⟩ A (movedTo s t) x fun A' s' value =>
      ty ≠ .void → Gives K ty A' s' value)
    {k : Option ArmEnd → LowerM α} {Q : α → LowerState → Prop}
    (hk : ∀ armEnd A' s', ArmRun K ty A0 s0 A s P t armEnd A' s'
      ⟨l && f.behind, fun u => w.marks u || l && f.leadsTo s0.loops u, false⟩ →
      Ends K (k armEnd) s' Q) : Ends K (do
        switchTo t
        let value ← x
        let armEnd ← finishArm value
        k armEnd) s Q := by
  have hmoved := h.moved ht.inside ht.live_eq
  have hready := ht.enter h0 h hbinds
  refine .switchTo_bind (Ends.bind hx ?_)
  rintro value s1 ⟨A1, hlow, h1, hvalue⟩
  have hstaged := hmoved.then h0 hlow
  have havail (v : Value) (hv : AtHand A0 s0.builder v) : AtHand A1 s1.builder v :=
    hlow.avail v (ht.available v hv)
  refine (finishArm_ends h0 hstaged h1 havail hvalue).bind ?_
  rintro armEnd s2 ⟨hstaged2, hlocal, hsome, hjoins⟩
  refine hk armEnd A1 s2 ⟨(hstaged2.mono ?_).congr (fun _ => rfl) (fun _ _ => rfl) ?_,
    hsome.trans hlocal.reach_pass.symm, fun arm harm => ⟨(hjoins arm harm).2, ?_⟩, ?_,
    fun u l hu hawaits => ?_⟩
  · rintro u (⟨⟨hu, hne⟩ | hu, hne'⟩ | hu)
    · exact .inl ⟨hu, hne⟩
    · exact absurd hu hne'
    · exact .inr hu
  · simp [Way.andThen, Course.way, hbinds]
  · exact (hjoins arm harm).1 ▸ hlow.place
  · exact hlow.toGrown.trans hready.coherent hlow.toCoherent hlow.place hlocal.toGrown
  · have hne : u ≠ s1.builder.current := hlow.place.ne hawaits.exists_block hu
    exact ((hawaits.moved t).through h0 hmoved hlow hu).kept hstaged hlocal hne
      (by simp [Course.way, Course.pass])

/-- Lowering of a piece of code completes wherever control gets to it, or does not, as `live` says. -/
def Lowerable {α : Type} (K : Setting) (live : Bool) (c : Course) (x : LowerM α)
    (good : Avail → LowerState → α → Prop) : Prop :=
  ∀ ⦃A s⦄, Ready K A s → s.builder.isReachable = live → Completes K c A s x good

/-- What an arm of a branch of some type is lowered to. -/
abbrev ArmGives (K : Setting) (ty : Ty) (A : Avail) (s : LowerState) (value : Option Value) : Prop :=
  ty ≠ .void → Gives K ty A s value

lemma branch_completes (h : Ready K A s) {test : Value} (htest : Operand K .i1 A s test) {ty : Nat}
    {x y : LowerM (Option Value)}
    (hx : Lowerable K s.builder.isReachable ⟨f, false⟩ x (ArmGives K (K.ctx.env.ty ty)))
    (hy : Lowerable K s.builder.isReachable ⟨g, false⟩ y (ArmGives K (K.ctx.env.ty ty)))
    (span : Span) (node : Nat) : Completes K ⟨f.orElse g, false⟩ A s (do
      let thenBlock ← createBlock "if.then"
      let elseBlock ← createBlock "if.else"
      emit (.condBr test thenBlock elseBlock)
      switchTo thenBlock
      let thenEnd ← finishArm (← x)
      switchTo elseBlock
      let elseEnd ← finishArm (← y)
      mergeArms K.ctx span node ty "if.merge" (thenEnd.toList ++ elseEnd.toList))
      (Gives K (K.ctx.env.ty ty)) := by
  refine .of_lowers h (fork_ends h h.refl rfl htest _ _ fun first second A1 s1 hfork => ?_)
    (fun _ _ hlow => hlow) rfl
  have hlive {A' : Avail} {s' : LowerState} {t : Block} (ht : Awaits A s A' s' t true) :
      (movedTo s' t).builder.isReachable = s.builder.isReachable :=
    ht.live_eq.trans (Bool.and_true _)
  refine branchArm_ends h hfork.staged rfl hfork.awaits_first
    (hx (hfork.awaits_first.enter h hfork.staged rfl) (hlive hfork.awaits_first))
    fun thenEnd A2 s2 hthen => ?_
  have hsecond := hthen.awaits second _ hfork.ne hfork.awaits_second
  refine branchArm_ends h hthen.staged rfl hsecond
    (hy (hsecond.enter h hthen.staged rfl) (hlive hsecond)) fun elseEnd A3 s3 helse => ?_
  have hne (arm : ArmEnd) (harm : arm ∈ thenEnd) : arm.block ≠ second :=
    ((hthen.joins arm harm).2.ne hfork.awaits_second.exists_block hfork.ne).symm
  have harms : Arms K (K.ctx.env.ty ty) A s A3 s3 (thenEnd.toList ++ elseEnd.toList) := by
    refine ⟨?_, fun arm harm => ?_⟩
    · cases thenEnd <;> cases elseEnd <;> simp
      next first second =>
        have hjoins := (hthen.joins first rfl).1
        exact (helse.joins second rfl).2.ne hjoins.isOpen.1 (hne first rfl)
    · simp only [mem_append, Option.mem_toList] at harm
      rcases harm with harm | harm
      · have hjoins := (hthen.joins arm harm).1
        refine hjoins.kept (helse.grown.open_kept (hthen.staged.toCoherent.switchTo second)
          hjoins.isOpen (hne arm harm)) helse.grown
      · exact (helse.joins arm harm).1
  refine (mergeArms_ends h (helse.staged.mono ?_) rfl harms span node _).mono
    fun value s4 ⟨A4, hlow, hvalue⟩ => ⟨A4, hlow.congr (fun hreach => ?_) (fun t _ => ?_) id, hvalue⟩
  · rw [blocksOf_append]
    rintro t (⟨⟨ht | ht, hne⟩ | ht, hne'⟩ | ht)
    · exact absurd ht hne
    · exact absurd ht hne'
    · exact .inl ht
    · exact .inr ht
  · have hthenSome := hthen.isSome_eq
    have helseSome := helse.isSome_eq
    rw [hthen.staged.reach_eq, hreach] at hthenSome
    rw [helse.staged.reach_eq, hreach] at helseSome
    cases thenEnd <;> cases elseEnd <;> simp_all [Course.way, Course.pass]
  · simp [Course.way, Course.pass]

lemma propagate_completes (h : Ready K A s) {ty result : Nat} {v : Value}
    (hv : Operand K (K.ctx.env.ty ty) A s v)
    (hsite : K.Keeps s.builder.isReachable (.propagate ty result)) (span : Span) :
    Completes K .pass A s (propagate K.ctx span ty v) (Gives K (K.ctx.env.ty result)) := by
  unfold propagate
  split
  · next ok err retOk retErr hkind hret =>
    split
    · next hnone =>
      refine .inconsistent fun hs => ?_
      obtain ⟨agg, -, -, hagg, -⟩ := (K.faithful (.inl hs)).result hret
      rw [hnone] at hagg
      cases hagg
    · next agg hagg =>
      have hpropagatable (hs : K.sound) : Propagatable K.ctx.env err retErr := by
        obtain ⟨ok', err', retOk', retErr', hkind', hret', hprop⟩ := hsite.selected hs
        rw [hkind] at hkind'
        rw [hret] at hret'
        cases hkind'
        cases hret'
        exact hprop
      refine .step h (extract_completes h hv nofun fun _ _ => ⟨ok, err, hkind, rfl⟩)
        fun tag A1 s1 hlow1 h1 htag => ?_
      have hv1 := hlow1.operand hv
      refine .of_lowers h1 (fork_ends h1 h1.refl rfl htag _ _ fun failing resume A2 s2 hfork => ?_)
        (fun _ _ hlow => hlow) rfl
      have hmoved := hfork.staged.moved hfork.awaits_first.inside hfork.awaits_first.live_eq
      have h2 := hfork.awaits_first.enter h1 hfork.staged rfl
      have hv2 : Operand K (K.ctx.env.ty ty) A2 (movedTo s2 failing) v :=
        hmoved.operand hfork.awaits_first.available hv1
      refine .switchTo_bind ?_
      refine Ends.bind (propagatedError_completes h2 hkind hv2 hpropagatable)
        fun error s3 ⟨A3, hlow3, h3, herror⟩ => ?_
      refine Ends.bind (insert_const h3 rfl rfl nofun fun _ => trivial)
        fun isErr s4 ⟨A4, hlow4, h4, hisErr⟩ => ?_
      refine Ends.bind (undefOf_completes h4 retOk) fun noValue s5 ⟨A5, hlow5, h5, hnoValue⟩ => ?_
      refine Ends.bind (makeAgg_completes h5 hret hagg (hlow5.operand hisErr) hnoValue
        (hlow5.gives (hlow4.gives herror))) fun residual s6 ⟨A6, hlow6, h6, hresidual⟩ => ?_
      have hlow := ((hlow3.trans_pass h2 hlow4).trans_pass h2 hlow5).trans_pass h2 hlow6
      have hstaged6 := hmoved.trans_pass h1.coherent hlow.toStaged
      refine (emitRet_ends h6 ?_ fun ht => ?_).bind fun _ s7 hended => ?_
      · rintro _ ⟨⟩
        exact ⟨_, hresidual, fun _ _ _ => rfl⟩
      · exact iff_of_false ((K.faithful (.inr ht)).valued_of_result hret) nofun
      have hresume := ((hfork.awaits_second.moved failing).through h1 hmoved hlow hfork.ne).kept
        hstaged6 hended (hlow.place.ne hfork.awaits_second.exists_block hfork.ne)
        (by simp [Course.way, Course.pass])
      have hresumed := hresume.resume ((hstaged6.trans_pass h1.coherent hended).mono (by
        rintro t ((⟨⟨ht | ht, hne⟩ | ht, hne'⟩) | ht)
        · exact absurd ht hne
        · exact ht
        · exact absurd ht hne'
        · exact ht.elim))
      have h7 := hresumed.ready h1 rfl
      have hcast (value : Option Value) (s8 : LowerState) (hread : ∃ A8, Lowers K A6 (movedTo s7 resume)
          A8 s8 (Course.pass.way (movedTo s7 resume).loops) ∧ Ready K A8 s8 ∧
            Gives K (K.ctx.env.ty ok) A8 s8 value) :
          ∃ A8, Lowers K A1 s1 A8 s8 (Course.pass.way s1.loops) ∧
            Gives K (K.ctx.env.ty result) A8 s8 value := by
        obtain ⟨A8, hlow8, -, hvalue⟩ := hread
        have hlow := hresumed.trans_pass h1 hlow8
        refine ⟨A8, hlow, hvalue.cast (fun ht hr => ?_) fun hk hr hvoid => ?_⟩
        · rw [hsite.consistent ht (hlow1.reach (hlow.reach hr)) ok err hkind]
        · by_contra hvalued
          rcases hk with hs | ht
          · exact hsite.delivered hs (hlow1.reach (hlow.reach hr)) ok err hkind hvalued hvoid
          · rw [hsite.consistent ht (hlow1.reach (hlow.reach hr)) ok err hkind] at hvalued
            exact hvalued hvoid
      refine .switchTo_bind (Ends.mono ?_ hcast)
      change Completes K .pass A6 (movedTo s7 resume) _ (Gives K (K.ctx.env.ty ok))
      split
      · next hvoid => exact .pure h7 ⟨by simp, fun _ _ _ => hvoid⟩
      · next hvalued =>
        exact ((extract_completes h7 (hresumed.operand hv1) hvalued fun _ _ =>
          ⟨ok, err, hkind, rfl⟩).mono fun _ _ _ _ hw => .of_some hw).map
  · next hnot =>
    refine .inconsistent fun hs => ?_
    obtain ⟨_, _, retOk, retErr, -, hret, -⟩ := hsite.selected hs
    exact hnot retOk retErr hret
  · next hnot =>
    refine .inconsistent fun hs => ?_
    obtain ⟨ok, err, retOk, retErr, hkind, hret, -⟩ := hsite.selected hs
    exact hnot ok err retOk retErr hkind hret

end SsaLowering.Proofs
