import SsaLowering.Proofs.LoweringMatches

/-!
# Loops

A loop is begun by a jump to its header. Control may go back to the header from anywhere in the loop,
and to the exit and the next turn from anywhere in the body.
-/

namespace SsaLowering.Proofs

open Ir Lowering List
open Ir.Builder (firstBlock)

variable {K : Setting} {A A' A'' : Avail} {s s' s'' : LowerState} {P Q : Set Block} {t u : Block}
  {α : Type} {w : Way} {live hasCond hasStep e : Bool} {f g k : Flow} {blocks : LoopBlocks}

/-! ### The blocks of a loop -/

/-- The blocks of a loop have been made, and control is at its header. -/
structure LoopPlan (K : Setting) (A : Avail) (s : LowerState) (A' : Avail) (s' : LowerState)
    (hasCond hasStep : Bool) (blocks : LoopBlocks) : Prop where
  staged : Staged K A s A' s' {blocks.header, blocks.body, blocks.next, blocks.exit}
    (Course.pass.way s.loops)
  awaits : ∀ t ∈ ({blocks.header, blocks.body, blocks.next, blocks.exit} : Set Block),
    Awaits A s A' s' t (decide (t = blocks.header))
  exit_ne : blocks.exit ≠ blocks.header ∧ blocks.exit ≠ blocks.body ∧ blocks.exit ≠ blocks.next
  body_eq : if hasCond then blocks.body ≠ blocks.header else blocks.body = blocks.header
  next_eq : if hasStep then blocks.next ≠ blocks.header ∧ blocks.next ≠ blocks.body
    else blocks.next = blocks.header

lemma openLoop_ends (h : Ready K A s) (hasCond hasStep : Bool) :
    Ends K (openLoop hasCond hasStep) s fun blocks s' =>
      ∃ A', LoopPlan K A s A' s' hasCond hasStep blocks := by
  have hmade {S : Set Block} {A1 : Avail} {s1 : LowerState}
      (hd : Drafted K A s (Course.pass.way s.loops) A1 s1 S) (name : String) :
      Ends K (some <$> createBlock name) s1 fun made s2 => ∃ t A2, made = some t ∧
        Drafted K A s (Course.pass.way s.loops) A2 s2 (S ∪ {t}) ∧ t ∉ S :=
    by
    refine Ends.map ((hd.createBlock h name).mono ?_)
    rintro t s2 ⟨A2, hd2, hnew, -⟩
    exact ⟨t, A2, rfl, hd2, hnew⟩
  -- from the last block to the first: what is left to do once the others are made
  have hexit {S : Set Block} {A1 : Avail} {s1 : LowerState}
      (hd : Drafted K A s (Course.pass.way s.loops) A1 s1 S) {header body next : Block}
      (hS : S = {header, body, next}) (hbody : if hasCond then body ≠ header else body = header)
      (hnext : if hasStep then next ≠ header ∧ next ≠ body else next = header) :
      Ends K (do
        let exit ← createBlock "loop.exit"
        emit (.br header)
        return { header, body, next, exit }) s1 fun blocks s' =>
          ∃ A', LoopPlan K A s A' s' hasCond hasStep blocks := by
    subst hS
    refine (hd.createBlock h _).bind ?_
    rintro exit s2 ⟨A2, hd2, hnew, -⟩
    refine Ends.bind (hd2.finish h rfl rfl (by simp [Inst.operands]) (by simp [Inst.successors])
      fun _ _ => trivial) ?_
    rintro _ s3 ⟨hstaged, hawaits⟩
    have hall : ({header, body, next} ∪ {exit} : Set Block) = {header, body, next, exit} := by
      ext t
      simp
      tauto
    rw [hall] at hstaged hawaits
    refine .pure ⟨A2, hstaged, fun t ht => ?_, by simpa using hnew, hbody, hnext⟩
    simpa [Inst.successors, Course.way, Course.pass] using hawaits t ht
  have hstep {S : Set Block} {A1 : Avail} {s1 : LowerState}
      (hd : Drafted K A s (Course.pass.way s.loops) A1 s1 S) {header body : Block}
      (hS : S = {header, body}) (hbody : if hasCond then body ≠ header else body = header) :
      Ends K (do
        let step ← if hasStep then some <$> createBlock "loop.step" else pure none
        let exit ← createBlock "loop.exit"
        emit (.br header)
        return { header, body, next := step.getD header, exit }) s1 fun blocks s' =>
          ∃ A', LoopPlan K A s A' s' hasCond hasStep blocks := by
    subst hS
    cases hasStep with
    | false => exact hexit hd (by ext t; simp; tauto) hbody rfl
    | true =>
      refine (hmade hd _).bind ?_
      rintro _ s2 ⟨next, A2, rfl, hd2, hnew⟩
      exact hexit hd2 (by ext t; simp; tauto) hbody (by simpa using hnew)
  cases hasCond with
  | false =>
    refine (Ends.pure ⟨rfl, rfl⟩ : Ends K (pure none) s fun cond s' => cond = none ∧ s' = s).bind ?_
    rintro _ _ ⟨rfl, rfl⟩
    refine (h.refl.drafted.createBlock h _).bind ?_
    rintro body s1 ⟨A1, hd1, -⟩
    exact hstep hd1 (by simp) rfl
  | true =>
    refine (hmade h.refl.drafted _).bind ?_
    rintro _ s1 ⟨header, A1, rfl, hd1, -⟩
    refine (hd1.createBlock h _).bind ?_
    rintro body s2 ⟨A2, hd2, hnew, -⟩
    exact hstep hd2 (by ext t; simp; tauto) (by simpa using hnew)

/-- A new block whose code has been begun and to which control can go again: the header of a
loop. -/
structure Begun (A0 : Avail) (b0 : Builder) (A : Avail) (b : Builder) (t : Block) : Prop where
  ne_first : t ≠ firstBlock
  exists_block : t.id < b.function.blocks.size
  new : b0.function.blocks.size ≤ t.id
  no_phi : ∀ v ∈ b.code t, (codeOf b).instIs Inst.isPhi v = false
  avail : ∀ v, A t v ↔ AtHand A0 b0 v
  live : b0.isReachable = true → b.isLive t = true

namespace Begun

variable {A0 : Avail} {b0 b b' : Builder}

lemma of_planned (h : Planned A0 b0 A b t) (hb0 : Coherent A0 b0)
    (hlive : b0.isReachable = true → b.isLive t = true) : Begun A0 b0 A b t where
  ne_first := h.ne_first hb0
  exists_block := h.exists_block
  new := h.new
  no_phi v hv := by
    rw [h.empty] at hv
    cases hv
  avail := h.avail
  live := hlive

lemma moved (h : Begun A0 b0 A s.builder t) (u : Block) : Begun A0 b0 A (movedTo s u).builder t :=
  ⟨h.ne_first, h.exists_block, h.new, h.no_phi, h.avail, h.live⟩

lemma kept (h : Begun A0 b0 A b t) (hb : Coherent A b) (hg : Grown A b A' b') :
    Begun A0 b0 A' b' t where
  ne_first := h.ne_first
  exists_block := h.exists_block.trans_le hg.extended.blocks_le
  new := h.new
  no_phi v hv := by
    by_contra hphi
    have hphi := Bool.eq_true_of_not_eq_false hphi
    have hv' := hg.phis_kept t h.exists_block v hv hphi
    rw [hg.extended.instIs_eq (hb.formed.lt_of_mem_code hv'), h.no_phi v hv'] at hphi
    cases hphi
  avail v := by
    rw [hg.extended.avail_eq t h.exists_block]
    exact h.avail v
  live hlive := hg.live_mono t (h.live hlive)

/-- Control may go back to the header from anywhere in the loop. -/
lemma target (h : Begun A0 b0 A b t) (hb0 : Coherent A0 b0) (hg : Grown A0 b0 A b)
    (hplace : Inside b0 b.current) (havail : ∀ v, AtHand A0 b0 v → AtHand A b v) :
    Target A b t where
  ne_first := h.ne_first
  exists_block := h.exists_block
  no_phi := h.no_phi
  avail v hv := havail v ((h.avail v).mp hv)
  live _ hlive := h.live (hg.dead_place hb0 hplace hlive)

end Begun

/-- The body of a loop is next. Control may get to the exit already, as `e` says. -/
structure LoopEntry (K : Setting) (A : Avail) (s : LowerState) (A' : Avail) (s' : LowerState)
    (hasStep : Bool) (blocks : LoopBlocks) (f : Flow) (e : Bool) : Prop where
  staged : ∃ behind, Staged K A s A' s'
    {t | t = blocks.body ∨ t = blocks.exit ∨ hasStep ∧ t = blocks.next}
    ⟨behind, f.leadsTo s.loops, false⟩
  header : Begun A s.builder A' s'.builder blocks.header
  body : Awaits A s A' s' blocks.body f.behind
  exit : Awaits A s A' s' blocks.exit e
  next : if hasStep then Awaits A s A' s' blocks.next false else blocks.next = blocks.header
  exit_ne : blocks.exit ≠ blocks.header ∧ blocks.exit ≠ blocks.body ∧ blocks.exit ≠ blocks.next
  next_ne : hasStep → blocks.next ≠ blocks.body

/-- The body of a loop has been lowered. -/
structure LoopTurn (K : Setting) (A : Avail) (s : LowerState) (A' : Avail) (s' : LowerState)
    (hasStep : Bool) (blocks : LoopBlocks) (f g : Flow) (e : Bool) : Prop where
  staged : ∃ behind, Staged K A s A' s' {t | t = blocks.exit ∨ hasStep ∧ t = blocks.next}
    ⟨behind, f.leadsTo s.loops, false⟩
  header : Begun A s.builder A' s'.builder blocks.header
  exit : Awaits A s A' s' blocks.exit (e || f.behind && g.exits)
  next : hasStep → Awaits A s A' s' blocks.next (f.behind && (g.behind || g.nexts))

lemma LoopPlan.header (h : Ready K A s) (hplan : LoopPlan K A s A' s' hasCond hasStep blocks) :
    Begun A s.builder A' s'.builder blocks.header := by
  have hheader := hplan.awaits blocks.header (by simp)
  refine .of_planned hheader.toPlanned h.coherent fun hreach => ?_
  rw [hheader.live_eq, hreach]
  simp

lemma LoopPlan.entry (h : Ready K A s) (hplan : LoopPlan K A s A' s' false hasStep blocks) :
    LoopEntry K A s A' s' hasStep blocks .pass false := by
  have hbody : blocks.body = blocks.header := hplan.body_eq
  refine ⟨⟨true, hplan.staged.mono ?_⟩, hplan.header h, ?_, ?_, ?_,
    hplan.exit_ne, ?_⟩
  · rintro t (ht | ht | ht | ht)
    · exact .inl (ht.trans hbody.symm)
    · exact .inl ht
    · cases hasStep with
      | false => exact .inl ((ht.trans hplan.next_eq).trans hbody.symm)
      | true => exact .inr (.inr ⟨rfl, ht⟩)
    · exact .inr (.inl ht)
  · simpa [hbody] using hplan.awaits blocks.body (by simp)
  · simpa [hplan.exit_ne.1] using hplan.awaits blocks.exit (by simp)
  · cases hasStep with
    | false => exact hplan.next_eq
    | true => simpa [(show _ ∧ _ from hplan.next_eq).1] using hplan.awaits blocks.next (by simp)
  · rintro rfl
    exact hplan.next_eq.2

/-! ### Lowering loops -/

section Loop

variable {x : LowerM (Option Value)} {rest : LowerM α} {R : α → LowerState → Prop}

lemma loopCond_ends (h : Ready K A s) (hplan : LoopPlan K A s A' s' true hasStep blocks) {ty : Nat}
    (hx : Lowerable K s.builder.isReachable ⟨f, false⟩ x (Gives K (K.ctx.env.ty ty)))
    (hsite : K.Keeps (s.builder.isReachable && f.behind) (.cond ty)) (span : Span) (node : Nat)
    (testSpan : Span)
    (hrest : ∀ A'' s'', LoopEntry K A s A'' s'' hasStep blocks f f.behind → Ends K rest s'' R) :
    Ends K (do
      switchTo blocks.header
      let value ← x
      let test ← asOperand K.ctx testSpan ty value
      locate span node
      emit (.condBr test blocks.body blocks.exit)
      rest) s' R := by
  have hne : blocks.body ≠ blocks.header := hplan.body_eq
  have hheader : Awaits A s A' s' blocks.header true := by
    simpa using hplan.awaits blocks.header (by simp)
  have hbody : Awaits A s A' s' blocks.body false := by
    simpa [hne] using hplan.awaits blocks.body (by simp)
  have hexit : Awaits A s A' s' blocks.exit false := by
    simpa [hplan.exit_ne.1] using hplan.awaits blocks.exit (by simp)
  have hmoved := hplan.staged.moved hheader.inside hheader.live_eq
  have h0 := hheader.enter h hplan.staged rfl
  have hlive : (movedTo s' blocks.header).builder.isReachable = s.builder.isReachable :=
    hheader.live_eq.trans (Bool.and_true _)
  refine .switchTo_bind (Ends.bind (hx h0 hlive) fun value s1 ⟨A1, hlow1, h1, hvalue⟩ => ?_)
  have hreach1 : s1.builder.isReachable = (s.builder.isReachable && f.behind) := by
    rw [hlow1.reach_eq, hlive]
    rfl
  rw [← hreach1] at hsite
  refine Ends.bind (asOperand_completes h1 hvalue fun hs _ => hsite.selected hs)
    fun test s2 ⟨A2, hlow2, h2, htest⟩ => ?_
  refine Ends.bind (locate_completes h2 span node) fun _ s3 ⟨A3, hlow3, h3, _⟩ => ?_
  have hlow := (hlow1.trans_pass h0 hlow2).trans_pass h0 hlow3
  have hstaged3 := hmoved.then h hlow
  have htest3 := hlow3.operand htest
  have havail (v : Value) (hv : AtHand A s.builder v) : AtHand A3 s3.builder v :=
    hlow.avail v (hheader.available v hv)
  have hbody3 := (hbody.moved blocks.header).through h hmoved hlow hne
  have hexit3 := (hexit.moved blocks.header).through h hmoved hlow hplan.exit_ne.1
  have htargets : ∀ t ∈ (Inst.condBr test blocks.body blocks.exit).successors,
      Awaits A s A3 s3 t false := by
    intro t ht
    simp only [Inst.successors, mem_cons, not_mem_nil, or_false] at ht
    rcases ht with rfl | rfl
    · exact hbody3
    · exact hexit3
  have htypes (ht : K.typed) (hr : s3.builder.isReachable = true) :
      TypeRule s3.builder.function K.ctx.env.layouts (.condBr test blocks.body blocks.exit) := by
    have hty : ty = Source.TypeTable.bool := hsite.consistent ht (hlow2.reach (hlow3.reach hr))
    rw [hty, (K.faithful (.inr ht)).ty_bool] at htest3
    exact (htest3.hasTy ht hr).1
  refine Ends.bind (finish_ends h3 rfl (uses_one htest3) (fun t ht =>
    (htargets t ht).toPlanned.target h.coherent havail) htypes) ?_
  rintro _ s4 ⟨hended, -⟩
  refine hrest A3 s4 ?_
  have hstaged := hstaged3.trans h.coherent hended fun t _ ht _ =>
    .inr (htargets t (by simpa using ht)).spared
  have hplace {t : Block} (ht : t ∈ ({blocks.header, blocks.body, blocks.next, blocks.exit} : Set _))
      (hne : t ≠ blocks.header) : t ≠ s3.builder.current :=
    hlow.place.ne (hplan.awaits t ht).exists_block hne
  refine ⟨⟨_, (hstaged.mono ?_).congr (fun _ => rfl) (fun t ht => ?_) fun _ => rfl⟩, ?_, ?_, ?_, ?_,
    hplan.exit_ne, ?_⟩
  · rintro t (⟨(⟨ht | ht | ht | ht, hne⟩ | ht), hne'⟩ | ht)
    · exact absurd ht hne
    · exact .inl ht
    · cases hasStep with
      | false => exact absurd (ht.trans hplan.next_eq) hne
      | true => exact .inr (.inr ⟨rfl, ht⟩)
    · exact .inr (.inl ht)
    · exact absurd ht hne'
    · exact ht.elim
  · have hnot : t ∉ (Inst.condBr test blocks.body blocks.exit).successors := fun hmem =>
      absurd ht (Nat.not_lt.mpr (htargets t hmem).new)
    simp [Way.andThen, Course.way, Course.pass, hnot]
  · exact ((hplan.header h).moved blocks.header).kept h0.coherent
      (hlow.toGrown.trans h0.coherent hlow.toCoherent hlow.place hended.toGrown)
  · simpa [Inst.successors, Way.andThen, Course.way] using
      hbody3.after hstaged3 hended (hplace (by simp) hne)
  · simpa [Inst.successors, Way.andThen, Course.way] using
      hexit3.after hstaged3 hended (hplace (by simp) hplan.exit_ne.1)
  · cases hasStep with
    | false => exact hplan.next_eq
    | true =>
      obtain ⟨hne, hne'⟩ : _ ∧ _ := hplan.next_eq
      have hnext : Awaits A s A' s' blocks.next false := by
        simpa [hne] using hplan.awaits blocks.next (by simp)
      exact ((hnext.moved blocks.header).through h hmoved hlow hne).kept hstaged3 hended
        (hplace (by simp) hne) (by simp [Inst.successors, hne', hplan.exit_ne.2.2.symm])
  · rintro rfl
    exact hplan.next_eq.2

/-- The body of a loop is lowered; control goes from its end to the next turn. -/
lemma loopBody_ends (h : Ready K A s) (hentry : LoopEntry K A s A' s' hasStep blocks f e) {ty : Ty}
    (hx : Lowerable K (s.builder.isReachable && f.behind) ⟨g, false⟩ x (Gives K ty)) (span : Span)
    (node : Nat)
    (hrest : ∀ A'' s'', LoopTurn K A s A'' s'' hasStep blocks f g e → Ends K rest s'' R) :
    Ends K (do
      enterLoop blocks
      discard x
      locate span node
      emit (.br blocks.next)
      leaveLoop
      rest) s' R := by
  let l : LoopTargets := { exit := blocks.exit, next := blocks.next }
  let s0 : LowerState := { movedTo s' blocks.body with loops := l :: s'.loops }
  obtain ⟨behind, hstaged⟩ := hentry.staged
  have hmoved := hstaged.moved hentry.body.inside hentry.body.live_eq
  have hready := hentry.body.enter h hstaged rfl
  have hheader := (hentry.header.moved blocks.body).target h.coherent hmoved.toGrown hmoved.place
    hentry.body.available
  have hnext : Target A' (movedTo s' blocks.body).builder blocks.next := by
    cases hasStep with
    | false =>
      rw [show blocks.next = blocks.header from hentry.next]
      exact hheader
    | true =>
      exact ((show Awaits _ _ _ _ _ _ from hentry.next).moved blocks.body).toPlanned.target
        h.coherent hentry.body.available
  have h0 : Ready K A' s0 := by
    refine ⟨hready.coherent, hready.isOpen, fun other hother => ?_, fun var binding hlookup =>
      (hready.bindings var binding hlookup).of_builder rfl, hready.typed⟩
    rcases mem_cons.mp hother with rfl | hother
    · exact ⟨(hentry.exit.moved blocks.body).toPlanned.target h.coherent hentry.body.available, hnext⟩
    · exact hready.loops other hother
  have hlive : s0.builder.isReachable = (s.builder.isReachable && f.behind) := hentry.body.live_eq
  refine (show Ends K (enterLoop blocks) s' fun _ s'' => s'' = s0 from rfl).bind ?_
  rintro _ _ rfl
  refine Ends.bind (hx h0 hlive).ignore fun _ s1 ⟨A1, hlow1, h1, _⟩ => ?_
  refine Ends.bind (locate_completes h1 span node) fun _ s2 ⟨A2, hlow2, h2, _⟩ => ?_
  have hlow := hlow1.trans_pass h0 hlow2
  refine Ends.bind (finish_ends h2 rfl nofun (fun t ht => ?_) fun _ _ => trivial)
    fun _ s3 ⟨hended, _⟩ => ?_
  · obtain rfl : t = blocks.next := mem_singleton.mp ht
    exact (h2.loops l (by rw [hlow.loops_eq]; exact mem_cons_self)).2
  have hinner := hlow.staged h0 hended fun t _ ht hge => by
    obtain rfl : t = blocks.next := by simpa [Inst.successors] using ht
    exact absurd hnext.exists_block (Nat.not_lt.mpr hge)
  let s4 : LowerState := { s3 with loops := s3.loops.tail }
  have hloops : s4.loops = s'.loops := by
    change s3.loops.tail = s'.loops
    rw [hinner.loops_eq]
    rfl
  have hlocal : Staged K A' (movedTo s' blocks.body) A2 s4 ∅ _ :=
    ⟨hinner.toUnderway, hinner.place, hloops, hinner.live_eq, hinner.reach_eq, hinner.told,
      hinner.scopes, hinner.typed⟩
  have hmarks {t : Block} (ht : t ≠ blocks.exit) (ht' : t ≠ blocks.next) :
      ((Course.way ⟨g, false⟩ s0.loops).andThen
        ⟨true, fun u => decide (u ∈ (Inst.br blocks.next).successors), false⟩).marks t = false := by
    simp [Way.andThen, Course.way, Flow.leadsTo, s0, l, Inst.successors, ht, ht']
  refine (show Ends K leaveLoop s3 fun _ s'' => s'' = s4 from rfl).bind ?_
  rintro _ _ rfl
  have hall := hmoved.trans h.coherent hlocal fun t hr ht _ => by
    by_cases hexit : t = blocks.exit
    · exact .inr (hexit ▸ hentry.exit.spared)
    · by_cases hnext : t = blocks.next
      · rw [hnext]
        cases hasStep with
        | false =>
          rw [show blocks.next = blocks.header from hentry.next]
          exact .inl (hentry.header.live (hmoved.reach hr))
        | true => exact .inr (show Awaits _ _ _ _ _ _ from hentry.next).spared
      · rw [hmarks hexit hnext] at ht
        cases ht
  refine hrest A2 s4 ⟨⟨_, (hall.mono ?_).congr (fun _ => rfl) (fun t ht => ?_) fun _ => rfl⟩, ?_, ?_,
    fun hstep => ?_⟩
  · rintro t (⟨ht | ht, hne⟩ | ht)
    · exact absurd ht hne
    · exact ht
    · exact ht.elim
  · have hexit : t ≠ blocks.exit := by
      rintro rfl
      exact absurd ht (Nat.not_lt.mpr hentry.exit.new)
    have hnext : t ≠ blocks.next := by
      rintro rfl
      refine absurd ht (Nat.not_lt.mpr ?_)
      cases hasStep with
      | false => exact (show blocks.next = blocks.header from hentry.next) ▸ hentry.header.new
      | true => exact (show Awaits _ _ _ _ _ _ from hentry.next).new
    exact (congrArg (f.leadsTo s.loops t || f.behind && ·) (hmarks hexit hnext)).trans (by simp)
  · exact (hentry.header.moved blocks.body).kept hready.coherent hlocal.toGrown
  · simpa [Way.andThen, Course.way, Flow.leadsTo, s0, l, Inst.successors, hentry.exit_ne.2.2] using
      (hentry.exit.moved blocks.body).after hmoved hlocal hentry.exit_ne.2.1
  · subst hstep
    simpa [Way.andThen, Course.way, Flow.leadsTo, s0, l, Inst.successors, hentry.exit_ne.2.2.symm,
      Bool.or_comm] using ((show Awaits _ _ _ _ _ _ from hentry.next).moved blocks.body).after hmoved
        hlocal (hentry.next_ne rfl)

/-- The step of a loop is lowered; control goes from its end to the header. -/
lemma loopStep_ends (h : Ready K A s) (hturn : LoopTurn K A s A' s' true blocks f g e)
    (hne : blocks.exit ≠ blocks.header ∧ blocks.exit ≠ blocks.next) {ty : Ty}
    (hx : Lowerable K (s.builder.isReachable && (f.behind && (g.behind || g.nexts))) ⟨k, false⟩ x
      (Gives K ty)) (span : Span) (node : Nat)
    (hrest : ∀ A'' s'' behind, Staged K A s A'' s'' {blocks.exit}
      ⟨behind, fun t => f.leadsTo s.loops t ||
        f.behind && (g.behind || g.nexts) && k.leadsTo s.loops t, false⟩ →
      Awaits A s A'' s'' blocks.exit (e || f.behind && g.exits) → Ends K rest s'' R) :
    Ends K (do
      switchTo blocks.next
      discard x
      locate span node
      emit (.br blocks.header)
      rest) s' R := by
  obtain ⟨behind, hstaged⟩ := hturn.staged
  have hnext := hturn.next rfl
  have hmoved := hstaged.moved hnext.inside hnext.live_eq
  have h0 := hnext.enter h hstaged rfl
  refine .switchTo_bind (Ends.bind (hx h0 hnext.live_eq).ignore fun _ s1 ⟨A1, hlow1, h1, _⟩ => ?_)
  refine Ends.bind (locate_completes h1 span node) fun _ s2 ⟨A2, hlow2, h2, _⟩ => ?_
  have hlow := hlow1.trans_pass h0 hlow2
  have hstaged2 := hmoved.then h hlow
  have hheader2 := (hturn.header.moved blocks.next).kept h0.coherent hlow.toGrown
  refine Ends.bind (finish_ends h2 rfl nofun (fun t ht => ?_) fun _ _ => trivial)
    fun _ s3 ⟨hended, _⟩ => ?_
  · obtain rfl : t = blocks.header := mem_singleton.mp ht
    exact hheader2.target h.coherent hstaged2.toGrown hstaged2.place
      fun v hv => hlow.avail v (hnext.available v hv)
  have hall := hstaged2.trans h.coherent hended fun t hr ht _ => by
    obtain rfl : t = blocks.header := by simpa [Inst.successors] using ht
    exact .inl (hheader2.live (hstaged2.reach hr))
  have hexit := ((hturn.exit.moved blocks.next).through h hmoved hlow hne.2).kept hstaged2 hended
    (hlow.place.ne hturn.exit.exists_block hne.2) (by simp [Inst.successors, hne.1])
  refine hrest A2 s3 _ ((hall.mono ?_).congr (fun _ => rfl) (fun t ht => ?_) fun _ => rfl) hexit
  · rintro t (⟨(⟨ht | ht, hne⟩ | ht), hne'⟩ | ht)
    · exact ht
    · exact absurd ht.2 hne
    · exact absurd ht hne'
    · exact ht.elim
  · have hheader : t ≠ blocks.header := by
      rintro rfl
      exact absurd ht (Nat.not_lt.mpr hturn.header.new)
    simp [Way.andThen, Course.way, Inst.successors, hheader]

end Loop

/-! ### Whole loops -/

section

variable {x y : LowerM (Option Value)} {ty ty' : Ty} (span : Span) (node : Nat)

lemma loopRest_ends (h : Ready K A s) (hentry : LoopEntry K A s A' s' false blocks f e)
    (hx : Lowerable K (s.builder.isReachable && f.behind) ⟨g, false⟩ x (Gives K ty)) :
    Ends K (do
      enterLoop blocks
      discard x
      locate span node
      emit (.br blocks.next)
      leaveLoop
      switchTo blocks.exit) s' fun _ s'' => ∃ A'', Lowers K A s A'' s''
        ⟨e || f.behind && g.exits, f.leadsTo s.loops, false⟩ := by
  refine loopBody_ends h hentry hx span node fun A1 s1 hturn => ?_
  obtain ⟨behind, hstaged⟩ := hturn.staged
  exact ⟨A1, hturn.exit.resume (hstaged.mono (by simp))⟩

lemma loopRest_step_ends (h : Ready K A s) (hentry : LoopEntry K A s A' s' true blocks f e)
    (hx : Lowerable K (s.builder.isReachable && f.behind) ⟨g, false⟩ x (Gives K ty))
    (hy : Lowerable K (s.builder.isReachable && (f.behind && (g.behind || g.nexts))) ⟨k, false⟩ y
      (Gives K ty')) : Ends K (do
      enterLoop blocks
      discard x
      locate span node
      emit (.br blocks.next)
      leaveLoop
      switchTo blocks.next
      discard y
      locate span node
      emit (.br blocks.header)
      switchTo blocks.exit) s' fun _ s'' => ∃ A'', Lowers K A s A'' s''
        ⟨e || f.behind && g.exits, fun t => f.leadsTo s.loops t ||
          f.behind && (g.behind || g.nexts) && k.leadsTo s.loops t, false⟩ := by
  refine loopBody_ends h hentry hx span node fun A1 s1 hturn => ?_
  exact loopStep_ends h hturn ⟨hentry.exit_ne.1, hentry.exit_ne.2.2⟩ hy span node
    fun A2 s2 behind hstaged hexit => ⟨A2, hexit.resume hstaged⟩

end

end SsaLowering.Proofs
