import SsaLowering.Proofs.LoweringBranches

/-!
# Scopes and matches

Scopes are closed where they were opened, with all that was bound in them hidden. The arms of a match
are tried one after the other, each in a scope of its own; those that control leaves wait for the
block where they meet.
-/

namespace SsaLowering.Proofs

open Ir Lowering List
open SsaLowering.Core (Pattern)

variable {K : Setting} {A0 A A' : Avail} {s0 s s' : LowerState} {P : Set Block} {α β : Type}
  {subject value : Option Value} {w : Way} {live b b' : Bool} {f g : Flow} {ty : Ty}
  {x : LowerM α} {k : α → LowerM β} {good : Avail → LowerState → α → Prop}
  {better : Avail → LowerState → β → Prop}

namespace Lowerable

lemma bind (hx : Lowerable K live ⟨f, b⟩ x good)
    (hk : ∀ a A s, Ready K A s → s.builder.isReachable = (live && f.behind) → good A s a →
      Completes K ⟨g, b'⟩ A s (k a) better) :
    Lowerable K live ⟨f.andThen g, b || b'⟩ (x >>= k) better := by
  intro A s h hreach
  refine .bind h (hx h hreach) fun a A' s' hlow h' ha => hk a A' s' h' ?_ ha
  rw [hlow.reach_eq, hreach]
  rfl

end Lowerable

/-! ### Scopes -/

def inScope (s : LowerState) : LowerState :=
  { s with scopes := s.scopes.push }

def outOfScope (s : LowerState) : LowerState :=
  { s with scopes := s.scopes.pop }

lemma Ready.inScope (h : Ready K A s) : Ready K A (inScope s) :=
  ⟨h.coherent, h.isOpen, h.loops, fun var binding hlookup =>
    (h.bindings var binding hlookup).of_builder rfl, h.typed⟩

lemma Ready.outOfScope (h : Ready K A s) : Ready K A (outOfScope s) :=
  ⟨h.coherent, h.isOpen, h.loops, fun var binding hlookup =>
    (h.bindings var binding (Adds.lookup_of_pop hlookup)).of_builder rfl, h.typed⟩

lemma Staged.outOfScope (h : Staged K A0 (inScope s0) A s P w) :
    Staged K A0 s0 A (outOfScope s) P { w with binds := false } where
  toUnderway := h.toUnderway
  place := h.place
  loops_eq := h.loops_eq
  live_eq := h.live_eq
  reach_eq := h.reach_eq
  told := h.told
  scopes := by
    obtain ⟨added, hadds, -⟩ := h.scopes
    exact ⟨[], hadds.pop, fun _ => rfl⟩
  typed := h.typed

lemma Lowers.outOfScope (h : Lowers K A0 (inScope s0) A s w) :
    Lowers K A0 s0 A (outOfScope s) { w with binds := false } :=
  ⟨h.toStaged.outOfScope, h.isOpen, h.avail⟩

lemma Ends.leaveScope_bind {k : Unit → LowerM β} {R : β → LowerState → Prop}
    (h : Ends K (k ()) (outOfScope s) R) : Ends K (leaveScope >>= k) s R :=
  h

lemma block_lowerable {k : Flow} {stmts : LowerM Unit} {x : LowerM (Option Value)}
    (hstmts : Lowerable K live ⟨f, true⟩ stmts fun _ _ _ => True) (hflow : f.andThen g = k)
    (hx : Lowerable K (live && f.behind) ⟨g, false⟩ x (Gives K ty)) :
    Lowerable K live ⟨k, false⟩ (do
      enterScope
      stmts
      let value ← x
      leaveScope
      return value) (Gives K ty) := by
  subst hflow
  intro A s h hreach
  have hall := (hstmts.bind fun _ A s h hreach _ => hx h hreach) h.inScope hreach
  change Ends K (stmts >>= fun _ => x >>= fun value => _) (inScope s) _
  rw [← bind_assoc]
  refine Ends.bind hall fun value s' ⟨A', hlow, h', hvalue⟩ => ?_
  exact ⟨A', hlow.outOfScope, h'.outOfScope, hvalue.of_builder rfl⟩

/-! ### Matches -/

/-- Arms of a match have been lowered. If none of them always matches, the cursor is where all have
failed. -/
structure ArmsRun (K : Setting) (ty : Ty) (A : Avail) (s : LowerState) (A' : Avail) (s' : LowerState)
    (result : List ArmEnd × Bool) (f : Flow) : Prop where
  staged : ∃ behind, Staged K A s A' s'
    (blocksOf result.1 ∪ {t | result.2 = false ∧ t = s'.builder.current})
    ⟨behind, f.leadsTo s.loops, false⟩
  arms : Arms K ty A s A' s' result.1
  cursor : result.2 = false → Ready K A' s' ∧ s'.builder.current ∉ blocksOf result.1
  isEmpty_eq : (!result.1.isEmpty) = (s.builder.isReachable && f.behind)

lemma ArmsRun.of_pass {A1 : Avail} {s1 : LowerState} {result : List ArmEnd × Bool} (h : Ready K A s)
    (hlow : Lowers K A s A1 s1 (Course.pass.way s.loops)) (hrun : ArmsRun K ty A1 s1 A' s' result f) :
    ArmsRun K ty A s A' s' result f where
  staged := by
    obtain ⟨behind, hstaged⟩ := hrun.staged
    refine ⟨behind, (hlow.staged h hstaged fun t _ ht hge => ?_).congr (fun _ => rfl)
      (fun t _ => ?_) id⟩
    · rw [hlow.loops_eq] at ht
      exact absurd (h.marks_old ⟨f, false⟩ ht) (Nat.not_lt.mpr hge)
    · simp [Way.andThen, Course.way, Course.pass, hlow.loops_eq]
  arms := ⟨hrun.arms.nodup, fun arm harm =>
    (hrun.arms.joins arm harm).of_later hlow.toStaged hlow.avail⟩
  cursor := hrun.cursor
  isEmpty_eq := by
    rw [hrun.isEmpty_eq, hlow.reach_eq]
    exact congrArg (· && f.behind) (Bool.and_true _)

lemma branchOnTest_ends (h0 : Ready K A0 s0) (h : Lowers K A0 s0 A s w) (hbinds : w.binds = false)
    {test : Value} (htest : Operand K .i1 A s test) :
    Ends K (branchOnTest (some test)) s fun next s' => ∃ arm block A' s1, next = some block ∧
      s' = movedTo s1 arm ∧ Forked K A0 s0 w A' s1 arm block :=
  fork_ends h0 h hbinds htest _ _ fun arm block A' s1 hfork => ⟨arm, block, A', s1, rfl, rfl, hfork⟩

section Arm

variable {scrutinee : Nat} {pattern : Pattern} {span : Span} {node : Nat} {x : LowerM (Option Value)}
  {rest : LowerM (List ArmEnd × Bool)}

/-- The arms behind an arm are lowered if the test of its pattern can fail. -/
def nextArms (rest : LowerM (List ArmEnd × Bool)) (next : Option Block) (armEnd : Option ArmEnd) :
    LowerM (List ArmEnd × Bool) :=
  match next with
  | none => return (armEnd.toList, true)
  | some next => do
    switchTo next
    let (ends, exhaustive) ← rest
    return (armEnd.toList ++ ends, exhaustive)

/-- An arm of a match, and what follows it. -/
def armSteps (ctx : Context) (span : Span) (node : Nat) (subject : Option Value) (pattern : Pattern)
    (x : LowerM (Option Value)) (rest : LowerM (List ArmEnd × Bool)) :
    LowerM (List ArmEnd × Bool) := do
  locate span node
  enterScope
  let test ← testPattern ctx span subject pattern
  let next ← branchOnTest test
  bindPattern ctx subject pattern
  let value ← x
  leaveScope
  let armEnd ← finishArm value
  nextArms rest next armEnd

lemma armSteps_irrefutable (h : Ready K A s)
    (hsubject : Gives K (K.ctx.env.ty scrutinee) A s subject)
    (hpattern : K.Known → PatternObeys K.rules K.ctx.env.types K.decls scrutinee pattern)
    (hirrefutable : pattern.isIrrefutable = true)
    (hx : Lowerable K s.builder.isReachable ⟨f, false⟩ x (ArmGives K ty)) :
    Ends K (armSteps K.ctx span node subject pattern x rest) s fun result s' =>
      ∃ A', ArmsRun K ty A s A' s' result f := by
  refine Ends.bind (locate_completes h span node) fun _ s1 ⟨A1, hlow1, h1, _⟩ => ?_
  have hsubject1 : Gives K _ A1 (inScope s1) subject := (hlow1.gives hsubject).of_builder rfl
  change Ends K (testPattern K.ctx span subject pattern >>= _) (inScope s1) _
  refine Ends.bind (testPattern_irrefutable hpattern h1.inScope hsubject1.operand hirrefutable) ?_
  rintro _ s2 ⟨A2, hlow2, h2, rfl⟩
  change Ends K (bindPattern K.ctx subject pattern >>= _) s2 _
  refine Ends.bind (bindPattern_completes h2 hpattern fun v hv =>
    hlow2.operand (hsubject1.operand v hv)) fun _ s3 ⟨A3, hlow3, h3, _⟩ => ?_
  have hlow13 := hlow2.trans h1.inScope hlow3
  have hreach3 : s3.builder.isReachable = s.builder.isReachable := by
    rw [hlow13.reach_eq]
    exact (Bool.and_true _).trans hlow1.reach_pass
  refine Ends.bind (hx h3 hreach3) fun value s4 ⟨A4, hlow4, h4, hvalue⟩ => ?_
  have hlow14 := hlow13.trans h1.inScope hlow4
  refine .leaveScope_bind ((finishArm_ends h1 hlow14.outOfScope.toStaged h4.outOfScope
    hlow14.outOfScope.avail fun hty => (hvalue hty).of_builder rfl).bind ?_)
  rintro armEnd s5 ⟨hstaged, -, hsome, hjoins⟩
  refine .pure ⟨A4, ?_⟩
  refine ArmsRun.of_pass h hlow1 ⟨⟨f.behind, (hstaged.mono ?_).congr ?_ ?_ ?_⟩, ⟨?_, ?_⟩, nofun, ?_⟩
  · exact fun t ht => .inl (ht.resolve_left fun ht => ht.2 ht.1)
  · simp [Way.andThen, Course.way]
  · simp [Way.andThen, Course.way, inScope]
  · exact fun _ => rfl
  · cases armEnd <;> simp
  · exact fun arm harm => (hjoins arm (Option.mem_toList.mp harm)).2
  · have hreach : (outOfScope s4).builder.isReachable = (s1.builder.isReachable && f.behind) := by
      rw [hlow14.outOfScope.reach_eq]
      simp [Way.andThen, Course.way]
    rw [← hreach, ← hsome]
    cases armEnd <;> rfl

lemma armSteps_refutable (h : Ready K A s)
    (hsubject : Gives K (K.ctx.env.ty scrutinee) A s subject)
    (hpattern : K.Known → PatternObeys K.rules K.ctx.env.types K.decls scrutinee pattern)
    (hsite : K.Keeps s.builder.isReachable
      (.pattern (shapeOf pattern) scrutinee s.builder.isReachable))
    (hrefutable : pattern.isIrrefutable = false)
    (hx : Lowerable K s.builder.isReachable ⟨f, false⟩ x (ArmGives K ty))
    (hrest : ∀ ⦃A' s'⦄, Ready K A' s' → s'.builder.isReachable = s.builder.isReachable →
      Gives K (K.ctx.env.ty scrutinee) A' s' subject →
      Ends K rest s' fun result s'' => ∃ A'', ArmsRun K ty A' s' A'' s'' result g) :
    Ends K (armSteps K.ctx span node subject pattern x rest) s fun result s' =>
      ∃ A', ArmsRun K ty A s A' s' result (f.orElse g) := by
  refine Ends.bind (locate_completes h span node) fun _ s1 ⟨A1, hlow1, h1, _⟩ => ?_
  have hreach1 := hlow1.reach_pass
  have hsubject1 : Gives K _ A1 (inScope s1) subject := (hlow1.gives hsubject).of_builder rfl
  change Ends K (testPattern K.ctx span subject pattern >>= _) (inScope s1) _
  rw [← hreach1] at hsite
  refine Ends.bind (testPattern_refutable hpattern hsite h1.inScope hsubject1 hrefutable) ?_
  rintro _ s2 ⟨A2, hlow2, h2, test, rfl, htest⟩
  refine (branchOnTest_ends h1.inScope hlow2 rfl htest).bind ?_
  rintro _ _ ⟨arm, next, A3, s3, rfl, rfl, hfork⟩
  have hmoved := hfork.staged.moved hfork.awaits_first.inside hfork.awaits_first.live_eq
  have h3 := hfork.awaits_first.enter h1.inScope hfork.staged rfl
  have hsubject3 (v : Value) (hv : v ∈ subject) : Operand K _ A3 (movedTo s3 arm) v :=
    hmoved.operand hfork.awaits_first.available (hsubject1.operand v hv)
  refine Ends.bind (bindPattern_completes h3 hpattern hsubject3) fun _ s4 ⟨A4, hlow4, h4, _⟩ => ?_
  have hreach4 : s4.builder.isReachable = s.builder.isReachable := by
    rw [hlow4.reach_eq, ← hreach1]
    exact (Bool.and_true _).trans (hfork.awaits_first.live_eq.trans (Bool.and_true _))
  refine Ends.bind (hx h4 hreach4) fun value s5 ⟨A5, hlow5, h5, hvalue⟩ => ?_
  have hlow45 := hlow4.trans h3 hlow5
  rw [← Course.way_andThen] at hlow45
  -- the arm as a whole, out of its scope
  have hstaged5 := (hmoved.then h1.inScope hlow45).outOfScope
  have havail5 (v : Value) (hv : AtHand A1 s1.builder v) : AtHand A5 s5.builder v :=
    hlow45.avail v (hfork.awaits_first.available v hv)
  have hnext5 := (hfork.awaits_second.moved arm).through h1.inScope hmoved hlow45 hfork.ne
  have hnext5' : Awaits A1 s1 A5 (outOfScope s5) next true :=
    ⟨hnext5.toPlanned, hnext5.live_eq, hnext5.spared⟩
  have hne5 : next ≠ s5.builder.current := hlow45.place.ne hfork.awaits_second.exists_block hfork.ne
  refine .leaveScope_bind ((finishArm_ends h1 hstaged5 h5.outOfScope havail5 fun hty =>
    (hvalue hty).of_builder rfl).bind ?_)
  rintro armEnd s6 ⟨hstaged6, hlocal, hsome, hjoins⟩
  have hnext6 := hnext5'.kept hstaged5 hlocal hne5 (by simp [Course.way, Course.pass])
  have hmoved6 := hstaged6.moved hnext6.inside hnext6.live_eq
  have h6 := hnext6.enter h1 hstaged6 rfl
  have hreach6 : (movedTo s6 next).builder.isReachable = s1.builder.isReachable :=
    hnext6.live_eq.trans (Bool.and_true _)
  have hsubject6 : Gives K _ A5 (movedTo s6 next) subject :=
    ⟨fun v hv => hmoved6.operand hnext6.available ((hsubject1.operand v hv).of_builder rfl),
      fun hk hr => hsubject1.missing hk (hreach6.symm.trans hr)⟩
  refine .switchTo_bind ((hrest h6 (hreach6.trans hreach1) hsubject6).bind ?_)
  rintro ⟨ends, exhaustive⟩ s7 ⟨A7, hrun⟩
  obtain ⟨behind, hstaged7⟩ := hrun.staged
  have hstaged := hmoved6.trans h1.coherent hstaged7 fun t _ ht hge => by
    rw [hmoved6.loops_eq] at ht
    exact absurd (h1.marks_old ⟨g, false⟩ ht) (Nat.not_lt.mpr hge)
  have hother (a : ArmEnd) (ha : a ∈ armEnd) (u : Block) (hu : Inside (movedTo s6 next).builder u) :
      a.block ≠ u := by
    obtain ⟨hblock, hjoin⟩ := hjoins a ha
    exact hu.ne hjoin.isOpen.1 (hblock ▸ hne5.symm)
  refine .pure ⟨A7, ArmsRun.of_pass h hlow1 ⟨⟨true && behind, (hstaged.mono ?_).congr (fun _ => rfl)
    (fun t _ => ?_) fun _ => rfl⟩, ⟨?_, fun a ha => ?_⟩, fun hfalse => ⟨(hrun.cursor hfalse).1, ?_⟩,
    ?_⟩⟩
  · rw [blocksOf_append]
    rintro t ((⟨⟨(⟨ht | ht, hne⟩ | ht), hne'⟩ | ht, hne''⟩) | (ht | ht))
    · exact absurd ht hne
    · exact absurd ht hne''
    · exact absurd ht hne'
    · exact .inl (.inl ht)
    · exact .inl (.inr ht)
    · exact .inr ht
  · simp [Way.andThen, Course.way, Course.pass, Course.andThen, inScope, hmoved6.loops_eq]
  · rw [map_append, nodup_append]
    refine ⟨by cases armEnd <;> simp, hrun.arms.nodup, ?_⟩
    simp only [mem_map, Option.mem_toList]
    rintro _ ⟨a, ha, rfl⟩ _ ⟨other, hmem, rfl⟩
    exact hother a ha _ (hrun.arms.joins other hmem).inside
  · simp only [mem_append, Option.mem_toList] at ha
    rcases ha with ha | ha
    · have hjoin := (hjoins a ha).2
      exact hjoin.kept (hstaged7.open_kept h6.coherent hjoin.isOpen (hother a ha _ (.inl rfl)))
        hstaged7.toGrown
    · exact (hrun.arms.joins a ha).of_later hmoved6 hnext6.available
  · rw [blocksOf_append]
    rintro (⟨a, ha, heq⟩ | hmem)
    · exact hother a (Option.mem_toList.mp ha) _ hstaged7.place heq
    · exact (hrun.cursor hfalse).2 hmem
  · have hreach5 : (outOfScope s5).builder.isReachable = (s1.builder.isReachable && f.behind) := by
      rw [hstaged5.reach_eq]
      simp [Way.andThen, Course.way, Course.andThen, Course.pass]
    have hempty := hrun.isEmpty_eq
    rw [hreach6] at hempty
    rw [Flow.behind_orElse, Bool.and_or_distrib_left, ← hempty, ← hreach5, ← hsome]
    cases armEnd <;> simp

end Arm

lemma matchOn_lowerable {scrutinee ty : Nat} {x : LowerM (Option Value)}
    {arms : Option Value → LowerM (List ArmEnd × Bool)}
    (hx : Lowerable K live ⟨f, false⟩ x (Gives K (K.ctx.env.ty scrutinee)))
    (harms : ∀ ⦃subject A s⦄, Ready K A s → s.builder.isReachable = (live && f.behind) →
      Gives K (K.ctx.env.ty scrutinee) A s subject →
      Ends K (arms subject) s fun result s' => ∃ A', ArmsRun K (K.ctx.env.ty ty) A s A' s' result g)
    (span : Span) (node : Nat) : Lowerable K live ⟨f.andThen g, false⟩ (do
      let subject ← x
      let (ends, exhaustive) ← arms subject
      if !exhaustive then
        locate span node
        emit .unreachable
      mergeArms K.ctx span node ty "match.merge" ends) (Gives K (K.ctx.env.ty ty)) := by
  refine hx.bind fun subject A s h hreach hsubject => ?_
  refine .of_lowers h (Q := fun value s' => ∃ A', Lowers K A s A' s' (Course.way ⟨g, false⟩ s.loops) ∧
    Gives K (K.ctx.env.ty ty) A' s' value) ((harms h hreach hsubject).bind ?_)
      (fun _ _ hlow => hlow) rfl
  rintro ⟨ends, exhaustive⟩ s1 ⟨A1, hrun⟩
  obtain ⟨behind, hstaged⟩ := hrun.staged
  have hmerge {A2 : Avail} {s2 : LowerState} {behind : Bool}
      (hstaged : Staged K A s A2 s2 (blocksOf ends) ⟨behind, g.leadsTo s.loops, false⟩)
      (harms : Arms K (K.ctx.env.ty ty) A s A2 s2 ends) :
      Ends K (mergeArms K.ctx span node ty "match.merge" ends) s2 fun value s' => ∃ A',
        Lowers K A s A' s' (Course.way ⟨g, false⟩ s.loops) ∧
        Gives K (K.ctx.env.ty ty) A' s' value := by
    refine (mergeArms_ends h hstaged rfl harms span node _).mono fun value s' ⟨A', hlow, hvalue⟩ =>
      ⟨A', hlow.congr (fun hreach => ?_) (fun _ _ => rfl) id, hvalue⟩
    have hempty := hrun.isEmpty_eq
    rwa [hreach] at hempty
  cases exhaustive with
  | true => exact hmerge (hstaged.mono (by simp)) hrun.arms
  | false =>
    obtain ⟨h1, hcursor⟩ := hrun.cursor rfl
    refine Ends.bind (locate_completes h1 span node) fun _ s2 ⟨A2, hlow, h2, _⟩ => ?_
    refine Ends.bind (stop_ends h2 rfl rfl nofun fun _ _ => trivial) fun _ s3 hended => ?_
    have hlocal := (hlow.toStaged.trans_pass h1.coherent hended).mono (Q := ∅) (by simp)
    refine hmerge ((hstaged.trans_pass h.coherent hlocal).mono ?_)
      ⟨hrun.arms.nodup, fun arm harm => ?_⟩
    · rintro t (⟨ht | ht, hne⟩ | ht)
      · exact ht
      · exact absurd ht.2 hne
      · exact ht.elim
    · have hjoin := hrun.arms.joins arm harm
      exact hjoin.kept (hlocal.open_kept h1.coherent hjoin.isOpen fun heq =>
        hcursor ⟨arm, harm, heq⟩) hlocal.toGrown

end SsaLowering.Proofs
