import SsaLowering.Proofs.LoweringSteps

/-!
# Straight code

The steps of lowering that put plain instructions at the cursor: constants, variables, operators,
conversions, results and the tests of patterns.
-/

namespace SsaLowering.Proofs

open Ir Lowering
open SsaLowering.Core (Local Pattern)
open SsaLowering.Source (TypeTable StaticType)
open Ir.Builder (firstBlock Appended Created HeadLonger Joined)

variable {K : Setting} {A A' : Avail} {s s' : LowerState} {b b' : Builder} {inst : Inst}
  {value subject : Option Value} {record v : Value} {ty : Ty} {var : Local} {P : Set Block}
  {span : Span}

lemma Operand.cast {ty' : Ty} (h : Operand K ty A s v)
    (hty : K.typed → s.builder.isReachable = true → ty = ty') : Operand K ty' A s v :=
  ⟨h.atHand, fun ht hr => hty ht hr ▸ h.hasTy ht hr⟩

lemma Gives.cast {ty' : Ty} (h : Gives K ty A s value)
    (hty : K.typed → s.builder.isReachable = true → ty = ty')
    (hvoid : K.Known → s.builder.isReachable = true → ty = .void → ty' = .void) :
    Gives K ty' A s value :=
  ⟨fun v hv => (h.operand v hv).cast hty, fun hk hr hnone => hvoid hk hr (h.missing hk hr hnone)⟩

lemma Gives.of_some (h : Operand K ty A s v) : Gives K ty A s (some v) := by
  refine ⟨?_, nofun⟩
  rintro w ⟨⟩
  exact h

lemma Gives.of_dead (h : s.builder.isReachable = false) : Gives K ty A s none :=
  ⟨nofun, fun _ hr => absurd hr (by simp [h])⟩

/-! ### Instructions -/

/-- Instructions that may stand in the middle of the code of a block. -/
def isPlain (inst : Inst) : Bool :=
  !(inst.isPhi || isHeadInst inst || inst.isTerminator)

lemma plain_spec (h : isPlain inst = true) :
    inst.isPhi = false ∧ isHeadInst inst = false ∧ inst.isTerminator = false := by
  simpa [isPlain, and_assoc] using h

/-- Instructions in the middle of the code whose value can be used. -/
def yields (inst : Inst) : Bool :=
  isPlain inst && !isStore inst

lemma yields_spec (h : yields inst = true) : isPlain inst = true ∧ isStore inst = false := by
  simpa [yields] using h

lemma isSlot_eq_false (h : isHeadInst inst = false) : isSlot inst = false := by
  cases inst <;> first | rfl | cases h

/-- An instruction can be put at the cursor. -/
lemma insert_ends (h : Ready K A s)
    (htargets : ∀ t ∈ inst.successors, t.id < s.builder.function.blocks.size) :
    Ends K (insert inst) s fun v s' => v = s.builder.next ∧
      ∃ b', s' = { s with builder := b' } ∧ Appended s.builder inst b' := by
  have hopen := isTerminated_eq_false h.coherent h.isOpen
  obtain ⟨b', hstep, happended⟩ :=
    Builder.append_appended h.coherent.rooted h.isOpen.1 htargets hopen
  exact Ends.tryBuild hstep ⟨rfl, b', rfl, happended⟩

lemma staged_appended (h : Ready K A s) (happ : Appended s.builder inst b')
    (hunder : Underway A s.builder A b' P) (hhead : isHeadInst inst = false)
    (htargets : ∀ t ∈ inst.successors, Target A s.builder t)
    (hproper : K.typed → s.builder.isReachable = true →
      Proper s.builder.function K.ctx.env.layouts inst) :
    Staged K A s A { s with builder := b' } P
      ⟨true, fun t => decide (t ∈ inst.successors), false⟩ where
  toUnderway := hunder
  place := .inl happ.current_eq
  loops_eq := rfl
  live_eq t _ := by rw [happ.live_eq, Bool.and_comm]
  reach_eq := by
    rw [Builder.isReachable, happ.current_eq, happ.live_eq, Builder.isReachable]
    cases s.builder.isLive s.builder.current <;> simp
  told := .of_eq rfl
  scopes := ⟨[], .refl _, fun _ => rfl⟩
  typed ht := (h.typed ht).append h.coherent happ hunder.toGrown hhead htargets (hproper ht)

lemma inst?_appended (h : Appended b inst b') : b'.function.inst? b.next = some inst := by
  rw [Function.inst?, h.value_eq, if_pos rfl]
  rfl

lemma available_appended (h : Appended b inst b') (hhead : isHeadInst inst = false)
    (hstore : isStore inst = false) : AtHand A b' b.next := by
  have hinst : (codeOf b').inst b.next = some inst := inst?_appended h
  refine ⟨.inr (.inl ?_), ?_, ?_⟩
  · change b.next ∈ b'.code b'.current
    rw [h.current_eq, h.code_eq, if_pos rfl]
    exact List.mem_append_right _ (List.mem_singleton_self _)
  · change b.function.values.size < b'.function.values.size
    rw [h.values_size]
    exact Nat.lt_succ_self _
  · rw [Code.instIs, Code.instIs, hinst]
    exact ⟨hstore, isSlot_eq_false hhead⟩

lemma available_headLonger (h : HeadLonger b inst b') (hstore : isStore inst = false)
    (hslot : isSlot inst = false) : AtHand A b' b.next := by
  have hinst : (codeOf b').inst b.next = some inst := by
    rw [codeOf_headLonger h]
    exact Formed.inst_addValue_next (codeOf b) inst firstBlock
  refine ⟨.inr (.inr ?_), ?_, ?_⟩
  · change b.next ∈ b'.head
    rw [h.head_eq]
    exact List.mem_append_right _ (List.mem_singleton_self _)
  · change b.function.values.size < b'.function.values.size
    rw [h.values_size]
    exact Nat.lt_succ_self _
  · rw [Code.instIs, Code.instIs, hinst]
    exact ⟨hstore, hslot⟩

/-- What is at hand is not a slot. -/
lemma AtHand.slotRule (h : ∀ w ∈ inst.operands, AtHand A b w) : SlotRule b.function inst := by
  have hnot {address : Value} (haddress : AtHand A b address) (held : Ty) (pinned : Bool) :
      b.function.inst? address ≠ some (.alloca held pinned) := by
    intro hinst
    have hslot := haddress.2.2.2
    rw [Code.instIs, show (codeOf b).inst address = _ from hinst] at hslot
    cases hslot
  cases inst with
  | load ty address =>
    exact fun held pinned hinst => absurd hinst (hnot (h address (by simp [Inst.operands])) _ _)
  | store address stored =>
    exact fun held pinned hinst => absurd hinst (hnot (h address (by simp [Inst.operands])) _ _)
  | _ => trivial

lemma insert_stays (h : Ready K A s) (hplain : isPlain inst = true)
    (hoperands : ∀ w ∈ inst.operands, OperandAt A (codeOf s.builder) s.builder.current inst w)
    (hproper : K.typed → s.builder.isReachable = true →
      Proper s.builder.function K.ctx.env.layouts inst) :
    Completes K .pass A s (insert inst) fun A' s' v =>
      (isStore inst = false → AtHand A' s'.builder v) ∧
        s'.builder.function.inst? v = some inst := by
  obtain ⟨hphi, hhead, hterm⟩ := plain_spec hplain
  have hnone := Inst.successors_eq_nil_of_not_isTerminator hterm
  refine .of_lowers h (insert_ends h (by simp [hnone])) (fun v s' ⟨hv, b', hs', happ⟩ => ?_) rfl
  subst hv hs'
  obtain ⟨hunder, hopen⟩ := h.coherent.insert h.isOpen happ hphi hhead hterm hoperands
  have hstaged : Staged K A s A { s with builder := b' } {s.builder.current}
      (Course.pass.way s.loops) :=
    (staged_appended h happ hunder hhead (by simp [hnone]) hproper).congr (fun _ => rfl)
      (by simp [hnone, Course.way, Course.pass]) id
  rw [← happ.current_eq] at hunder hopen
  refine ⟨A, ⟨hstaged.mono (by simp [happ.current_eq]), hopen, fun w hw => ?_⟩,
    available_appended happ hhead, inst?_appended happ⟩
  rw [AtHand, happ.current_eq]
  exact hunder.extended.availableAt h.isOpen.1 hw

lemma uses_one (hv : Operand K ty A s v) : ∀ w ∈ [v], ∃ ty, Operand K ty A s w :=
  List.forall_mem_singleton.mpr ⟨ty, hv⟩

lemma uses_two {ty' : Ty} {v' : Value} (hv : Operand K ty A s v) (hv' : Operand K ty' A s v') :
    ∀ w ∈ [v, v'], ∃ ty, Operand K ty A s w :=
  List.forall_mem_cons.mpr ⟨⟨ty, hv⟩, uses_one hv'⟩

lemma HasTy.ne_void {F : Function} (h : HasTy F v ty) : F.ty v ≠ .void :=
  h.1.symm ▸ h.2

section

variable (hoperands : ∀ w ∈ inst.operands, ∃ ty, Operand K ty A s w)
include hoperands

lemma proper_of_operands (ht : K.typed) (hreach : s.builder.isReachable = true)
    (htypes : TypeRule s.builder.function K.ctx.env.layouts inst) :
    Proper s.builder.function K.ctx.env.layouts inst := by
  refine ⟨fun w hw => ?_, htypes, AtHand.slotRule (A := A) fun w hw => ?_⟩
  · obtain ⟨ty, hv⟩ := hoperands w hw
    exact (hv.hasTy ht hreach).ne_void
  · exact (hoperands w hw).elim fun _ hv => hv.atHand

lemma insert_plain (h : Ready K A s) (hplain : isPlain inst = true)
    (htypes : K.typed → s.builder.isReachable = true →
      TypeRule s.builder.function K.ctx.env.layouts inst) :
    Completes K .pass A s (insert inst) fun A' s' v =>
      (isStore inst = false → AtHand A' s'.builder v) ∧
        s'.builder.function.inst? v = some inst :=
  insert_stays h hplain (fun w hw => .inl ((hoperands w hw).elim fun _ hv => hv.atHand))
    fun ht hreach => proper_of_operands hoperands ht hreach (htypes ht hreach)

lemma insert_completes (h : Ready K A s) (hyields : yields inst = true)
    (hrule : K.typed → s.builder.isReachable = true →
      TypeRule s.builder.function K.ctx.env.layouts inst ∧ inst.ty ≠ .void) :
    Completes K .pass A s (insert inst) (Operand K inst.ty) := by
  obtain ⟨hplain, hstore⟩ := yields_spec hyields
  refine (insert_plain hoperands h hplain fun ht hr => (hrule ht hr).1).mono
    fun A' s' v hlow hv => ?_
  exact ⟨hv.1 hstore, fun ht hr => ⟨ty_of_inst hv.2, (hrule ht (hlow.reach hr)).2⟩⟩

lemma insert_gives (h : Ready K A s) (hyields : yields inst = true)
    (hrule : K.typed → s.builder.isReachable = true →
      TypeRule s.builder.function K.ctx.env.layouts inst ∧ inst.ty ≠ .void) :
    Completes K .pass A s (some <$> insert inst) (Gives K inst.ty) :=
  ((insert_completes hoperands h hyields hrule).mono fun _ _ _ _ hv => .of_some hv).map

lemma emit_plain (h : Ready K A s) (hplain : isPlain inst = true)
    (htypes : K.typed → s.builder.isReachable = true →
      TypeRule s.builder.function K.ctx.env.layouts inst) :
    Completes K .pass A s (emit inst) fun _ _ _ => True :=
  (insert_plain hoperands h hplain htypes).ignore

end

/-- Instructions without operands that have a type with values. -/
lemma insert_const (h : Ready K A s) (hyields : yields inst = true) (hnone : inst.operands = [])
    (hty : inst.ty ≠ .void) (htypes : ∀ F, TypeRule F K.ctx.env.layouts inst) :
    Completes K .pass A s (insert inst) (Operand K inst.ty) :=
  insert_completes (by simp [hnone]) h hyields fun _ _ => ⟨htypes _, hty⟩

lemma insert_constant (h : Ready K A s) (hyields : yields inst = true) (hnone : inst.operands = [])
    (hty : inst.ty ≠ .void) (htypes : ∀ F, TypeRule F K.ctx.env.layouts inst) :
    Completes K .pass A s (some <$> insert inst) (Gives K inst.ty) :=
  insert_gives (by simp [hnone]) h hyields fun _ _ => ⟨htypes _, hty⟩

section Slots

variable {address : Value} {pinned : Bool} (haddress : address ∈ s.builder.head)
  (hslot : s.builder.function.inst? address = some (.alloca ty pinned))
include haddress hslot

lemma load_gives (h : Ready K A s) : Completes K .pass A s (some <$> insert (.load ty address))
    (Gives K ty) := by
  have hoperands : ∀ w ∈ (Inst.load ty address).operands,
      OperandAt A (codeOf s.builder) s.builder.current (.load ty address) w :=
    List.forall_mem_singleton.mpr (.inr ⟨haddress, List.not_mem_nil⟩)
  have hty : s.builder.function.ty address = .ptr := ty_of_inst hslot
  refine ((insert_stays h rfl hoperands fun ht _ => ⟨?_, hty, ?_⟩).mono fun A' s' v _ hv => ?_).map
  · exact List.forall_mem_singleton.mpr (by rw [hty]; nofun)
  · intro held pinned hinst
    cases Option.some.inj (hslot.symm.trans hinst)
    rfl
  · exact .of_some ⟨hv.1 rfl, fun ht _ =>
      ⟨ty_of_inst hv.2, (h.typed ht).slots address ty pinned hslot⟩⟩

lemma store_completes (h : Ready K A s) (hv : Operand K ty A s v) :
    Completes K .pass A s (emit (.store address v)) fun _ _ _ => True := by
  refine (insert_stays h rfl (fun w hw => ?_) fun ht hr => ⟨?_, ?_, ?_⟩).ignore
  · by_cases heq : w = v
    · exact .inl (heq ▸ hv.atHand)
    · obtain rfl | hw := List.mem_cons.mp hw
      · exact .inr ⟨haddress, fun hmem => heq (List.mem_singleton.mp hmem)⟩
      · exact absurd (List.mem_singleton.mp hw) heq
  · exact List.forall_mem_cons.mpr ⟨by rw [ty_of_inst hslot]; nofun,
      List.forall_mem_singleton.mpr (hv.hasTy ht hr).ne_void⟩
  · exact ty_of_inst hslot
  · intro held pinned hinst
    cases Option.some.inj (hslot.symm.trans hinst)
    exact (hv.hasTy ht hr).1

end Slots

lemma Ready.noted (h : Ready K A s) {entry : Note} (hentry : ∀ t answer, entry = .asked t answer →
    t = s.builder.current ∧ answer = s.builder.isReachable) :
    Lowers K A s A (s.noted entry) (Course.pass.way s.loops) := by
  refine h.unmoved (s.noted entry) rfl h.coherent.rooted (fun _ => rfl) rfl rfl rfl
    ⟨[entry], rfl, ?_⟩ ⟨[], .refl _, fun _ => rfl⟩
  intro t answer hmem
  obtain ⟨rfl, rfl⟩ := hentry t answer (List.mem_singleton.mp hmem).symm
  exact ⟨h.isOpen.1, rfl, fun hdead => .inr ⟨rfl, hdead⟩⟩

lemma isReachable_completes (h : Ready K A s) : Completes K .pass A s isReachable
    fun A' s' answer => answer = s.builder.isReachable ∧ s'.builder = s.builder ∧ A' = A := by
  have hnoted : Lowers K A s A (s.noted (.asked s.builder.current s.builder.isReachable)) _ :=
    h.noted (by rintro t answer ⟨⟩; exact ⟨rfl, rfl⟩)
  exact ⟨A, hnoted, hnoted.ready h rfl, rfl, rfl, rfl⟩

lemma locate_completes (h : Ready K A s) (span : Span) (node : Nat) :
    Completes K .pass A s (locate span node) fun A' s' _ =>
      s' = { s with builder := s.builder.locateAt span node } ∧ A' = A := by
  have hrooted := h.coherent.rooted
  have hmoved : Lowers K A s A _ (Course.pass.way s.loops) :=
    h.unmoved { s with builder := s.builder.locateAt span node } rfl ⟨hrooted.layout_eq,
      hrooted.nonempty, hrooted.head_le, hrooted.known, hrooted.untagged⟩ (fun _ => rfl) rfl rfl rfl
      (.of_eq rfl) ⟨[], .refl _, fun _ => rfl⟩
  exact ⟨A, hmoved, hmoved.ready h rfl, rfl, rfl⟩

lemma report_completes (h : Ready K A s) (kind : ReportKind) (span : Span) (message : String) :
    Completes K .pass A s (report kind span message) fun _ _ _ => True := by
  have hmoved : Lowers K A s A _ (Course.pass.way s.loops) :=
    h.unmoved { s with reports := s.reports ++ [⟨kind, span, message⟩] } rfl h.coherent.rooted
      (fun _ => rfl) rfl rfl rfl (.of_eq rfl) ⟨[], .refl _, fun _ => rfl⟩
  exact ⟨A, hmoved, hmoved.ready h rfl, trivial⟩

lemma undefOf_completes (h : Ready K A s) (ty : Nat) :
    Completes K .pass A s (undefOf K.ctx ty) (Gives K (K.ctx.env.ty ty)) := by
  unfold undefOf
  split
  · next hvoid => exact .pure h ⟨nofun, fun _ _ _ => hvoid⟩
  · next hty => exact insert_constant h rfl rfl hty fun _ => trivial

lemma alloca_completes (h : Ready K A s) (hty : ty ≠ .void) (pinned : Bool) :
    Completes K .pass A s (build fun builder => builder.alloca ty pinned) fun _ s' address =>
      address ∈ s'.builder.head ∧ s'.builder.function.inst? address = some (.alloca ty pinned) := by
  obtain ⟨hnext, hlonger, hparams⟩ :=
    Builder.placeInEntry_headLonger h.coherent.rooted (.alloca ty pinned)
  have hunder := h.coherent.slot hlonger hparams
  have hended := h.coherent.formed.ended_congr hunder.extended (hlonger.code_eq s.builder.current)
  have hopen : Open (s.builder.alloca ty pinned).2 s.builder.current :=
    ⟨h.isOpen.1.trans_le hunder.extended.blocks_le, fun he => h.isOpen.2 (hended.mp he)⟩
  have hinst : (s.builder.placeInEntry (.alloca ty pinned)).2.function.inst? s.builder.next =
      some (.alloca ty pinned) := by
    rw [Function.inst?, hlonger.value_eq, if_pos rfl]
    rfl
  have hlow : Lowers K A s A { s with builder := (s.builder.alloca ty pinned).2 }
      (Course.pass.way s.loops) := by
    refine ⟨⟨hunder, .inl hlonger.current_eq, rfl, fun t _ => ?_, ?_, .of_eq rfl,
      ⟨[], .refl _, fun _ => rfl⟩, fun ht => ?_⟩, hopen, fun w hw => ?_⟩
    · exact (hlonger.live_eq t).trans (by simp [Course.way, Course.pass])
    · exact (hlonger.live_eq _).trans (Bool.and_true _).symm
    · refine (h.typed ht).head h.coherent hunder.extended hunder.toGrown.ret_eq hlonger.live_eq
        hlonger.code_eq fun v held pinned hv hge => ?_
      obtain rfl := eq_next hlonger.values_size hv hge
      cases hinst.symm.trans hv
      exact hty
    · have hkept := hunder.extended.availableAt h.isOpen.1 hw
      exact hkept
  refine ⟨A, hlow, hlow.ready h rfl, ?_, ?_⟩
  · change (s.builder.placeInEntry (.alloca ty pinned)).1 ∈ _
    exact hlonger.head_eq ▸ List.mem_append_right _ (List.mem_singleton_self _)
  · change (s.builder.placeInEntry (.alloca ty pinned)).2.function.inst?
      (s.builder.placeInEntry (.alloca ty pinned)).1 = _
    rw [hnext, hinst]

/-! ### Variables -/

lemma Setting.localType_eq (K : Setting) (var : Local) : K.ctx.localType var =
    ((K.ctx.body.local? var).getD { name := "", ty := 0, mutable := false }).ty := by
  rw [Context.localType]
  cases K.ctx.body.local? var <;> rfl

lemma Setting.decls_ty (K : Setting) (var : Local) : K.decls.ty var = K.ctx.localType var := by
  rw [Decls.ty, K.decls_eq]
  rfl

lemma chooseBinding_completes (h : Ready K A s)
    (hvalue : ∀ v ∈ value, Operand K (K.ctx.env.ty (K.ctx.localType var)) A s v)
    (hsettled : K.sound → value ≠ none → (K.decls.changes var || K.decls.fixed var) = true) :
    Completes K .pass A s (chooseBinding K.ctx var value) fun A' s' binding =>
      HeldAt K A' s' var binding := by
  have hchanges : K.decls.changes var =
      (((K.ctx.body.local? var).getD { name := "", ty := 0, mutable := false }).mutable ||
        ((K.ctx.body.local? var).getD { name := "", ty := 0, mutable := false }).captured) := by
    rw [Decls.changes, K.decls_eq]
    change ((K.ctx.body.local? var).map _).getD false = _
    cases K.ctx.body.local? var <;> rfl
  have hlocal := K.localType_eq var
  unfold chooseBinding
  dsimp only
  rw [← hlocal]
  split
  · next hvoid => exact .pure h hvoid
  · next hty =>
    exact .step h (alloca_completes h hty _) fun address A' s' _ h' haddress =>
      .pure h' ⟨haddress.1, rfl, _, haddress.2⟩
  · next hty =>
    split
    · refine .step h (alloca_completes h hty _) fun address A' s' hlow h' haddress => ?_
      exact .step h' (store_completes haddress.1 haddress.2 h' (hlow.operand (hvalue _ rfl)))
        fun _ A'' s'' hlow' h'' _ => .pure h'' ⟨hlow'.extended.head_le.subset haddress.1, rfl, _,
          hlow'.extended.inst?_kept haddress.2⟩
    · next hnot =>
      refine .pure h ⟨hvalue _ rfl, fun hs => ?_⟩
      have hset := hsettled hs nofun
      rwa [hchanges, Bool.eq_false_of_not_eq_true hnot, Bool.false_or] at hset

lemma bindLocal_completes (h : Ready K A s)
    (hvalue : ∀ v ∈ value, Operand K (K.ctx.env.ty (K.ctx.localType var)) A s v)
    (hsettled : K.sound → value ≠ none → (K.decls.changes var || K.decls.fixed var) = true) :
    Completes K ⟨.pass, true⟩ A s (bindLocal K.ctx var value) fun _ _ _ => True := by
  refine .step h (chooseBinding_completes h hvalue hsettled) fun binding A' s' _ h' hbinding => ?_
  have hmoved : Lowers K A' s' A' _ (Course.way ⟨.pass, true⟩ s'.loops) :=
    h'.unmoved { s'.noted (.bound var binding) with scopes := s'.scopes.bind var binding } rfl
      h'.coherent.rooted (fun _ => rfl) rfl rfl rfl ⟨[.bound var binding], rfl, by simp⟩
      ⟨[var], .bind _ _ _, nofun⟩
  refine ⟨A', hmoved, ?_, trivial⟩
  refine hmoved.toStaged.ready h' hmoved.isOpen hmoved.avail fun other held hlookup => ?_
  change (s'.scopes.bind var binding).lookup other = _ at hlookup
  rw [Adds.lookup_bind] at hlookup
  split at hlookup
  · next heq =>
    subst heq
    obtain rfl := Option.some.inj hlookup
    exact .inr (hmoved.toStaged.heldAt hmoved.avail hbinding)
  · exact .inl hlookup

lemma lookup_completes (h : Ready K A s) (var : Local) : Completes K .pass A s (lookup var)
    fun A' s' held => (∀ binding ∈ held, HeldAt K A' s' var binding) ∧
      s'.builder.isReachable = s.builder.isReachable := by
  have hnoted : Lowers K A s A (s.noted (.used var (s.scopes.lookup var))) _ := h.noted nofun
  refine ⟨A, hnoted, hnoted.ready h rfl, fun binding hlookup => ?_, rfl⟩
  exact hnoted.toStaged.heldAt hnoted.avail (h.bindings var binding hlookup)

lemma readLocal_completes (h : Ready K A s) {ty : Nat}
    (hty : K.Known → s.builder.isReachable = true → ty = K.decls.ty var) :
    Completes K .pass A s (readLocal K.ctx span ty var) (Gives K (K.ctx.env.ty ty)) := by
  refine .step h (lookup_completes h var) fun held A' s' _ h' ⟨hheld, hreach⟩ => ?_
  have hcast (hk : K.Known) (hr : s'.builder.isReachable = true) :
      K.ctx.env.ty (K.ctx.localType var) = K.ctx.env.ty ty := by
    rw [hty hk (hreach ▸ hr), K.decls_ty]
  cases held with
  | none =>
    exact .step h' (report_completes h' _ _ _) fun _ A'' s'' _ h'' _ => undefOf_completes h'' ty
  | some binding =>
    have hheld := hheld binding rfl
    cases binding with
    | value v => exact .pure h' (.of_some (hheld.1.cast fun ht hr => hcast (.inr ht) hr))
    | slot address held =>
      obtain ⟨hmem, rfl, pinned, hslot⟩ := hheld
      refine (load_gives hmem hslot h').mono fun A'' s'' v hlow hv => ?_
      exact hv.cast (fun ht hr => hcast (.inr ht) (hlow.reach hr)) fun hk hr hvoid =>
        hcast hk (hlow.reach hr) ▸ hvoid
    | unit => exact .pure h' ⟨nofun, fun hk hr _ => hcast hk hr ▸ hheld⟩

lemma lowerLiteral_completes (h : Ready K A s) {ty : Nat} {value : Source.Literal}
    (hsite : K.Keeps s.builder.isReachable (.literal ty value)) :
    Completes K .pass A s (lowerLiteral value) (Gives K (K.ctx.env.ty ty)) := by
  have hconst {inst : Inst} (hyields : yields inst = true) (hnone : inst.operands = [])
      (hvoid : inst.ty ≠ .void) (htypes : ∀ F, TypeRule F K.ctx.env.layouts inst)
      (hty : Faithful K.ctx.env → K.ctx.env.ty (literalType value) = inst.ty) :
      Completes K .pass A s (some <$> insert inst) (Gives K (K.ctx.env.ty ty)) := by
    refine (insert_constant h hyields hnone hvoid htypes).mono fun A' s' v hlow hv => ?_
    refine hv.cast (fun ht hr => ?_) fun _ _ hnone => absurd hnone hvoid
    rw [show ty = _ from hsite.consistent ht (hlow.reach hr), hty (K.faithful (.inr ht))]
  cases value with
  | unit =>
    refine .pure h ⟨nofun, fun hk hr _ => ?_⟩
    rcases hk with hs | ht
    · by_contra hvalued
      exact hsite.selected hs hvalued rfl
    · rw [show ty = _ from hsite.consistent ht hr]
      exact (K.faithful (.inr ht)).ty_unit
  | int value => exact hconst rfl rfl nofun (fun _ => trivial) Faithful.ty_int
  | float bits => exact hconst rfl rfl nofun (fun _ => trivial) Faithful.ty_float
  | bool value => exact hconst rfl rfl nofun (fun _ => trivial) Faithful.ty_bool
  | str text => exact hconst rfl rfl nofun (fun _ => trivial) Faithful.ty_str

lemma readGlobal_completes (h : Ready K A s) {ty : Nat} {name : String}
    (hsite : K.Keeps s.builder.isReachable (.globalVar ty name)) :
    Completes K .pass A s (readGlobal K.ctx span ty name) (Gives K (K.ctx.env.ty ty)) := by
  unfold readGlobal
  split
  · next held hheld =>
    split
    · next hvoid =>
      refine .pure h ⟨nofun, fun hk hr _ => ?_⟩
      rcases hk with hs | ht
      · by_contra hvalued
        exact hsite.selected hs held hheld hvalued hvoid
      · rw [show ty = held from hsite.consistent ht hr held hheld, hvoid]
    · next hvalued =>
      refine .step h (insert_const h rfl rfl nofun fun _ => trivial)
        fun address A' s' hlow h' haddress => ?_
      have hload : Completes K .pass A' s' (some <$> insert (.load (K.ctx.env.ty held) address))
          (Gives K (K.ctx.env.ty held)) :=
        insert_gives (uses_one haddress) h' rfl fun ht hr => ⟨(haddress.hasTy ht hr).1, hvalued⟩
      refine hload.mono fun A'' s'' v hlow' hv => ?_
      refine hv.cast (fun ht hr => ?_) fun _ _ hvoid => absurd hvoid hvalued
      rw [show ty = held from hsite.consistent ht (hlow.reach (hlow'.reach hr)) held hheld]
  · exact .step h (report_completes h _ _ _) fun _ A' s' _ h' _ => undefOf_completes h' ty

lemma assignLocal_completes (h : Ready K A s) {actual : Nat}
    (hvalue : ∀ v ∈ value, Operand K (K.ctx.env.ty actual) A s v)
    (hsite : K.Keeps s.builder.isReachable
      (.assign (K.decls.fixed var) (K.decls.ty var) actual)) :
    Completes K .pass A s (assignLocal K.ctx span var value) fun _ _ _ => True := by
  refine .step h (lookup_completes h var) fun held A' s' hlow h' ⟨hheld, hreach⟩ => ?_
  cases held with
  | none => exact report_completes h' _ _ _
  | some binding =>
    have hheld := hheld binding rfl
    cases binding with
    | value v =>
      refine .inconsistent fun hs => ?_
      have hfixed : K.decls.fixed var = false := hsite.selected hs
      rw [hheld.2 hs] at hfixed
      cases hfixed
    | slot address ty =>
      obtain ⟨hmem, rfl, pinned, hslot⟩ := hheld
      cases value with
      | none => exact .pure h' trivial
      | some v =>
        refine store_completes hmem hslot h' ((hlow.operand (hvalue v rfl)).cast fun ht hr => ?_)
        rw [show actual = _ from hsite.consistent ht (hlow.reach hr), K.decls_ty]
    | unit => exact .pure h' trivial

lemma assignGlobal_completes (h : Ready K A s) {name : String}
    (hvalue : ∀ v ∈ value, Operand K ty A s v) :
    Completes K .pass A s (assignGlobal K.ctx span name value) fun _ _ _ => True := by
  unfold assignGlobal
  split
  · exact report_completes h _ _ _
  · exact .pure h trivial
  · refine .step h (insert_const h rfl rfl nofun fun _ => trivial)
      fun address A' s' hlow h' haddress => ?_
    exact emit_plain (uses_two haddress (hlow.operand (hvalue _ rfl))) h' rfl fun ht hr =>
      (haddress.hasTy ht hr).1

lemma fieldPtr_completes (h : Ready K A s) (agg index : Nat) (hrecord : Operand K .ptr A s record) :
    Completes K .pass A s (insert (.fieldPtr agg record index)) (Operand K .ptr) :=
  insert_completes (uses_one hrecord) h rfl fun ht hr => ⟨(hrecord.hasTy ht hr).1, nofun⟩

lemma storeField_completes (h : Ready K A s) (agg index : Nat) (hrecord : Operand K .ptr A s record)
    (hv : Operand K ty A s v) :
    Completes K .pass A s (storeField agg record index v) fun _ _ _ => True := by
  refine .step h (fieldPtr_completes h agg index hrecord) fun address A' s' hlow h' haddress => ?_
  exact emit_plain (uses_two haddress (hlow.operand hv)) h' rfl fun ht hr => (haddress.hasTy ht hr).1

lemma assignField_completes (h : Ready K A s) {base index : Nat}
    (hdata : K.Known → IsData K.ctx.env.types base)
    (hrecord : Operand K (K.ctx.env.ty base) A s record) (hvalue : ∀ v ∈ value, Operand K ty A s v) :
    Completes K .pass A s (assignField K.ctx span base record index value) fun _ _ _ => True := by
  unfold assignField
  split
  · next hnone =>
    refine .inconsistent fun hs => ?_
    obtain ⟨data, hdata⟩ := hdata (.inl hs)
    obtain ⟨-, agg, -, -, hagg, -⟩ := (K.faithful (.inl hs)).data hdata
    rw [hnone] at hagg
    cases hagg
  · exact .pure h trivial
  · refine storeField_completes h _ index (hrecord.cast fun ht _ => ?_) (hvalue _ rfl)
    exact (hdata (.inr ht)).elim fun _ hdata => ((K.faithful (.inr ht)).data hdata).1

lemma readField_completes (h : Ready K A s) (ty agg index : Nat)
    (hrecord : Operand K .ptr A s record) :
    Completes K .pass A s (readField K.ctx ty agg record index) (Gives K (K.ctx.env.ty ty)) := by
  unfold readField
  split
  · next hvoid => exact .pure h ⟨nofun, fun _ _ _ => hvoid⟩
  · next hvalued =>
    refine .step h (fieldPtr_completes h agg index hrecord) fun address A' s' _ h' haddress => ?_
    exact insert_gives (uses_one haddress) h' rfl fun ht hr => ⟨(haddress.hasTy ht hr).1, hvalued⟩

/-! ### Operands and operators -/

lemma asOperand_completes (h : Ready K A s) {ty : Nat} (hvalue : Gives K (K.ctx.env.ty ty) A s value)
    (hvalued : K.sound → s.builder.isReachable = true → Valued K.ctx.env ty) :
    Completes K .pass A s (asOperand K.ctx span ty value) (Operand K (K.ctx.env.ty ty)) := by
  cases value with
  | some v => exact .pure h (hvalue.operand v rfl)
  | none =>
    refine .step h (isReachable_completes h) fun answer A' s' hlow h' ⟨hanswer, _⟩ => ?_
    subst hanswer
    split
    · next hr => exact .inconsistent fun hs => hvalued hs hr (hvalue.missing (.inl hs) hr rfl)
    · next hdead => exact insert_completes nofun h' rfl fun _ hr => absurd (hlow.reach hr) hdead

lemma layoutOf_completes (h : Ready K A s) {ty : Nat}
    (hagg : K.sound → ∃ agg, K.ctx.env.agg? ty = some agg) :
    Completes K .pass A s (layoutOf K.ctx span ty) fun _ _ agg => K.ctx.env.agg? ty = some agg := by
  unfold layoutOf
  split
  · next hsome => exact .pure h hsome
  · next hnone =>
    refine .inconsistent fun hs => ?_
    obtain ⟨agg, hagg⟩ := hagg hs
    rw [hnone] at hagg
    cases hagg

/-- A scrutinee may be missing where control does not get to. -/
lemma subjectValue_completes (h : Ready K A s) (hsubject : Gives K ty A s subject)
    (hmissing : K.sound → subject = none → K.strict = false) :
    Completes K .pass A s (subjectValue span subject) (Operand K ty) := by
  cases subject with
  | some v => exact .pure h (hsubject.operand v rfl)
  | none => exact fun hs => ⟨hmissing hs rfl, rfl⟩

/-- The instruction for an operator is plain and uses the operands only. -/
lemma selectBinary_plain {kind : StaticType} {op : Core.BinaryOp} {lhs rhs : Value}
    {selection : Selection} (h : selectBinary kind op lhs rhs = some selection) :
    yields selection.inst = true ∧ selection.inst.operands = [lhs, rhs] := by
  cases kind <;> cases op <;> cases h <;> exact ⟨rfl, rfl⟩

lemma selectUnary_plain {kind : StaticType} {op : Source.UnaryOp} {operand : Value}
    (h : selectUnary kind op operand = some inst) :
    yields inst = true ∧ inst.operands = [operand] := by
  cases kind <;> cases op <;> cases h <;> exact ⟨rfl, rfl⟩

lemma selectBinary_types {env : Environment} (henv : Faithful env) {F : Function}
    (layouts : LayoutTable) {kind : StaticType} {op : Core.BinaryOp} {lhs rhs : Value} {ty : Nat}
    {selection : Selection} (hkind : env.kind? ty = some kind)
    (hselect : selectBinary kind op lhs rhs = some selection) (hlhs : HasTy F lhs (env.ty ty))
    (hrhs : HasTy F rhs (env.ty ty)) :
    TypeRule F layouts selection.inst ∧ selection.inst.ty = env.ty (operatorType op ty) ∧
      selection.inst.ty ≠ .void ∧ (selection.negated = true → selection.inst.ty = .i1) := by
  have hfits := henv.fits ty kind hkind
  have hbool := henv.ty_bool
  have hsame : F.ty rhs = F.ty lhs := hrhs.1.trans hlhs.1.symm
  have hleft := hlhs.1
  cases kind with
  | int | float | bool | str =>
    rw [show env.ty ty = _ from hfits] at hleft
    cases op <;> cases hselect <;>
      exact ⟨by simp [TypeRule, hsame, hleft],
        by simp [Inst.ty, operatorType, compares, hbool, show env.ty ty = _ from hfits],
        by simp [Inst.ty], by simp [Inst.ty]⟩
  | unit | never | data | result => cases hselect

lemma selectUnary_types {env : Environment} (henv : Faithful env) {F : Function}
    (layouts : LayoutTable) {kind : StaticType} {op : Source.UnaryOp} {operand : Value} {ty : Nat}
    (hkind : env.kind? ty = some kind) (hselect : selectUnary kind op operand = some inst)
    (hoperand : HasTy F operand (env.ty ty)) :
    TypeRule F layouts inst ∧ inst.ty = env.ty ty := by
  have hfits := henv.fits ty kind hkind
  have hty := hoperand.1
  cases kind with
  | int | float | bool =>
    rw [show env.ty ty = _ from hfits] at hty
    cases op <;> cases hselect <;> exact ⟨hty, (show env.ty ty = _ from hfits).symm⟩
  | unit | never | str | data | result => cases hselect

lemma lowerBinary_completes (h : Ready K A s) {op : Core.BinaryOp} {ty ty' result : Nat}
    {lhs rhs : Value} (hlhs : Operand K (K.ctx.env.ty ty) A s lhs)
    (hrhs : Operand K (K.ctx.env.ty ty') A s rhs)
    (hsite : K.Keeps s.builder.isReachable (.binary op ty ty' result)) :
    Completes K .pass A s (lowerBinary K.ctx span op ty lhs rhs)
      (Operand K (K.ctx.env.ty result)) := by
  unfold lowerBinary
  split
  · next hnone =>
    refine .inconsistent fun hs => ?_
    obtain ⟨⟨kind, hkind, hselect⟩, -⟩ := hsite.selected hs
    have hsome := hselect lhs rhs
    rw [hkind, Option.bind_some] at hnone
    rw [hnone] at hsome
    cases hsome
  · next selection hselect =>
    obtain ⟨kind, hkind, hselect⟩ := Option.bind_eq_some_iff.mp hselect
    obtain ⟨hyields, hoperands⟩ := selectBinary_plain hselect
    have htypes (ht : K.typed) (hr : s.builder.isReachable = true) :=
      selectBinary_types (K.faithful (.inr ht)) K.ctx.env.layouts hkind hselect (hlhs.hasTy ht hr)
        ((hsite.consistent ht hr).1 ▸ hrhs.hasTy ht hr)
    refine .step h (insert_completes (hoperands ▸ uses_two hlhs hrhs) h hyields fun ht hr =>
      ⟨(htypes ht hr).1, (htypes ht hr).2.2.1⟩) fun v A' s' hlow h' hv => ?_
    have hresult (ht : K.typed) (hr : s'.builder.isReachable = true) :
        selection.inst.ty = K.ctx.env.ty result := by
      rw [(hsite.consistent ht (hlow.reach hr)).2]
      exact (htypes ht (hlow.reach hr)).2.1
    split
    · next hnegated =>
      have hnot : Completes K .pass A' s' (insert (.unary .not .i1 v)) (Operand K .i1) :=
        insert_completes (uses_one hv) h' rfl fun ht hr =>
          ⟨(hv.hasTy ht hr).1.trans ((htypes ht (hlow.reach hr)).2.2.2 hnegated), nofun⟩
      refine hnot.mono fun A'' s'' w hlow' hw => hw.cast fun ht hr => ?_
      rw [← hresult ht (hlow'.reach hr), (htypes ht (hlow.reach (hlow'.reach hr))).2.2.2 hnegated]
    · exact .pure h' (hv.cast hresult)

lemma lowerUnary_completes (h : Ready K A s) {op : Source.UnaryOp} {ty result : Nat}
    (hv : Operand K (K.ctx.env.ty ty) A s v)
    (hsite : K.Keeps s.builder.isReachable (.unary op ty result)) :
    Completes K .pass A s (lowerUnary K.ctx span op ty v) (Operand K (K.ctx.env.ty result)) := by
  unfold lowerUnary
  split
  · next hnone =>
    refine .inconsistent fun hs => ?_
    obtain ⟨kind, hkind, hselect⟩ := hsite.selected hs
    have hsome := hselect v
    rw [hkind, Option.bind_some] at hnone
    rw [hnone] at hsome
    cases hsome
  · next inst hselect =>
    obtain ⟨kind, hkind, hselect⟩ := Option.bind_eq_some_iff.mp hselect
    obtain ⟨hyields, hoperands⟩ := selectUnary_plain hselect
    have htypes (ht : K.typed) (hr : s.builder.isReachable = true) :=
      selectUnary_types (K.faithful (.inr ht)) K.ctx.env.layouts hkind hselect (hv.hasTy ht hr)
    refine (insert_completes (hoperands ▸ uses_one hv) h hyields fun ht hr =>
      ⟨(htypes ht hr).1, ?_⟩).mono fun A' s' w hlow hw => hw.cast fun ht hr => ?_
    · rw [(htypes ht hr).2]
      exact (hv.hasTy ht hr).2
    · rw [(htypes ht (hlow.reach hr)).2, show result = ty from hsite.consistent ht (hlow.reach hr)]

lemma apply_completes (h : Ready K A s) {source target : Nat} {kind kind' : StaticType}
    {conversion : Conversion} (hkind : K.ctx.env.kind? source = some kind)
    (hkind' : K.ctx.env.kind? target = some kind')
    (hconversion : conversion? kind kind' = some conversion)
    (hv : Operand K (K.ctx.env.ty source) A s v) :
    Completes K .pass A s (conversion.apply v) (Operand K (K.ctx.env.ty target)) := by
  have hfrom (ht : K.typed) : Fits K.ctx.env source kind :=
    (K.faithful (.inr ht)).fits source kind hkind
  have hto (ht : K.typed) : Fits K.ctx.env target kind' :=
    (K.faithful (.inr ht)).fits target kind' hkind'
  have hcast {x : LowerM Value} {held : Ty} (hx : Completes K .pass A s x (Operand K held))
      (hheld : K.typed → K.ctx.env.ty target = held) :
      Completes K .pass A s x (Operand K (K.ctx.env.ty target)) :=
    hx.mono fun _ _ _ _ hw => hw.cast fun ht _ => (hheld ht).symm
  have hty (ht : K.typed) (hr : s.builder.isReachable = true) := (hv.hasTy ht hr).1
  cases kind <;> cases kind' <;> cases hconversion
  case int.int | float.float | bool.bool =>
    exact .pure h (hv.cast fun ht _ => (hfrom ht).trans (hto ht).symm)
  case int.float | float.int | bool.int =>
    exact hcast (insert_completes (uses_one hv) h rfl fun _ _ => ⟨trivial, nofun⟩) hto
  case bool.float =>
    refine hcast (.step h (insert_completes (uses_one hv) h rfl fun _ _ => ⟨trivial, nofun⟩) ?_) hto
    exact fun wide A' s' _ h' hwide =>
      insert_completes (uses_one hwide) h' rfl fun _ _ => ⟨trivial, nofun⟩
  case int.bool | float.bool =>
    refine hcast (.step h (insert_const h rfl rfl nofun fun _ => trivial) ?_) hto
    intro zero A' s' hlow h' hzero
    have hv := hlow.operand hv
    refine insert_completes (uses_two hv hzero) h' rfl fun ht hr => ⟨?_, nofun⟩
    have hleft := (hv.hasTy ht hr).1.trans (hfrom ht)
    have hright := (hzero.hasTy ht hr).1
    first | exact ⟨hleft, hright⟩ | exact hright.trans hleft.symm

lemma convert_completes (h : Ready K A s) {source target : Nat}
    (hv : Operand K (K.ctx.env.ty source) A s v)
    (hconv : K.sound → Convertible K.ctx.env source target) :
    Completes K .pass A s (convert K.ctx span v source target) (Operand K (K.ctx.env.ty target)) := by
  unfold convert
  split
  · next heq =>
    subst heq
    exact .pure h hv
  · next hne =>
    simp only
    split
    · next conversion hknown =>
      obtain ⟨kind, hkind, hknown⟩ := Option.bind_eq_some_iff.mp hknown
      obtain ⟨kind', hkind', hknown⟩ := Option.bind_eq_some_iff.mp hknown
      exact apply_completes h hkind hkind' hknown hv
    · next hnone =>
      refine .inconsistent fun hs => ?_
      rcases hconv hs with heq | ⟨kind, kind', hkind, hkind', hsome⟩
      · exact hne heq
      · rw [hkind, hkind'] at hnone
        rw [show conversion? kind kind' = none from hnone] at hsome
        cases hsome

/-! ### Results and patterns -/

/-- The types of the tag and the payloads of a result. -/
def FieldOf (env : Environment) (ty : Nat) (position : Nat) (held : Ty) : Prop :=
  ∃ ok err, env.kind? ty = some (.result ok err) ∧
    [.i1, env.ty ok, env.ty err][position]? = some held

lemma extract_completes (h : Ready K A s) {ty position : Nat} {held : Ty}
    (hv : Operand K (K.ctx.env.ty ty) A s v) (hvalued : held ≠ .void)
    (hfield : K.typed → s.builder.isReachable = true → FieldOf K.ctx.env ty position held) :
    Completes K .pass A s (insert (.extractField held v position)) (Operand K held) := by
  refine insert_completes (uses_one hv) h rfl fun ht hr => ⟨⟨hvalued, ?_⟩, hvalued⟩
  obtain ⟨ok, err, hkind, hheld⟩ := hfield ht hr
  obtain ⟨agg, name, hty, -, hlayout⟩ := (K.faithful (.inr ht)).fits ty _ hkind
  exact ⟨agg, _, (hv.hasTy ht hr).1.trans hty, hlayout, hheld⟩

lemma Gives.toList (h : Gives K ty A s value) (ht : K.typed) (hr : s.builder.isReachable = true) :
    value.toList.map s.builder.function.ty = [ty].filter (· ≠ .void) := by
  cases value with
  | none => simp [h.missing (.inr ht) hr rfl]
  | some v =>
    obtain ⟨hty, hvalued⟩ := (h.operand v rfl).hasTy ht hr
    simp [hty, hvalued]

lemma makeAgg_completes (h : Ready K A s) {ty ok err agg : Nat} {okValue errValue : Option Value}
    {tag : Value} (hkind : K.ctx.env.kind? ty = some (.result ok err))
    (hagg : K.ctx.env.agg? ty = some agg) (htag : Operand K .i1 A s tag)
    (hok : Gives K (K.ctx.env.ty ok) A s okValue) (herr : Gives K (K.ctx.env.ty err) A s errValue) :
    Completes K .pass A s (insert (.makeAgg agg (tag :: okValue.toList ++ errValue.toList)))
      (Operand K (K.ctx.env.ty ty)) := by
  have hlayout (ht : K.typed) : ∃ name, K.ctx.env.ty ty = .agg agg ∧
      K.ctx.env.layouts.get? agg = some (.result name (K.ctx.env.ty ok) (K.ctx.env.ty err)) := by
    obtain ⟨agg', name, hty, hagg', hlayout⟩ := (K.faithful (.inr ht)).result hkind
    obtain rfl := Option.some.inj (hagg.symm.trans hagg')
    exact ⟨name, hty, hlayout⟩
  have hall {ty : Ty} {value : Option Value} (hvalue : Gives K ty A s value) :
      ∀ w ∈ value.toList, ∃ ty, Operand K ty A s w :=
    fun w hw => ⟨ty, hvalue.operand w (Option.mem_toList.mp hw)⟩
  have hmake : Completes K .pass A s
      (insert (.makeAgg agg (tag :: okValue.toList ++ errValue.toList))) (Operand K (.agg agg)) := by
    refine insert_completes ?_ h rfl fun ht hr => ⟨?_, nofun⟩
    · exact List.forall_mem_append.mpr ⟨List.forall_mem_cons.mpr ⟨⟨_, htag⟩, hall hok⟩, hall herr⟩
    · obtain ⟨name, -, hlayout⟩ := hlayout ht
      refine ⟨_, hlayout, ?_⟩
      rw [List.map_append, List.map_cons, (htag.hasTy ht hr).1, hok.toList ht hr, herr.toList ht hr,
        Layout.valueFields, Layout.result]
      simp [List.filter_cons]
      split <;> rfl
  exact hmake.mono fun A' s' v _ hv => hv.cast fun ht _ => ((hlayout ht).elim fun _ h => h.1.symm)

lemma makeResult_completes (h : Ready K A s) {ty actual : Nat} {isErr : Bool}
    {payload : Option Value} (hpayload : Gives K (K.ctx.env.ty actual) A s payload)
    (hsite : K.Keeps s.builder.isReachable (.result isErr actual ty)) :
    Completes K .pass A s (makeResult K.ctx span ty isErr payload) (Operand K (K.ctx.env.ty ty)) := by
  unfold makeResult
  split
  · next ok err hkind =>
    have hagg (hs : K.sound) : ∃ agg, K.ctx.env.agg? ty = some agg := by
      obtain ⟨agg, -, -, hagg, -⟩ := (K.faithful (.inl hs)).result hkind
      exact ⟨agg, hagg⟩
    refine .step h (layoutOf_completes h hagg) fun agg A1 s1 hlow1 h1 hagg => ?_
    refine .step h1 (insert_const h1 rfl rfl nofun fun _ => trivial)
      fun tag A2 s2 hlow2 h2 htag => ?_
    have hrest (filled : Option Value) {A3 : Avail} {s3 : LowerState} (h3 : Ready K A3 s3)
        (htag' : Operand K .i1 A3 s3 tag)
        (hfilled : Gives K (K.ctx.env.ty (if isErr then (err, ok) else (ok, err)).1) A3 s3 filled) :
        Completes K .pass A3 s3 (do
          let other ← undefOf K.ctx (if isErr then (err, ok) else (ok, err)).2
          insert (.makeAgg agg (tag :: (if isErr then (other, filled) else (filled, other)).1.toList ++
            (if isErr then (other, filled) else (filled, other)).2.toList)))
          (Operand K (K.ctx.env.ty ty)) := by
      refine .step h3 (undefOf_completes h3 _) fun other A4 s4 hlow4 h4 hother => ?_
      have hfilled := hlow4.gives hfilled
      cases isErr with
      | true => exact makeAgg_completes h4 hkind hagg (hlow4.operand htag') hother hfilled
      | false => exact makeAgg_completes h4 hkind hagg (hlow4.operand htag') hfilled hother
    cases payload with
    | none =>
      exact .step h2 (undefOf_completes h2 _) fun filled A3 s3 hlow3 h3 hfilled =>
        hrest filled h3 (hlow3.operand htag) hfilled
    | some v =>
      have hv := (hlow2.gives (hlow1.gives hpayload)).operand v rfl
      refine hrest (some v) h2 htag (.of_some (hv.cast fun ht hr => ?_))
      rw [hsite.consistent ht (hlow1.reach (hlow2.reach hr)) ok err hkind]
      cases isErr <;> rfl
  · next hnot =>
    refine .inconsistent fun hs => ?_
    obtain ⟨ok, err, hkind⟩ := hsite.selected hs
    exact hnot ok err hkind

/-- The error of a result as one of the type that the function returns. -/
lemma propagatedError_completes (h : Ready K A s) {ty ok source target : Nat}
    (hkind : K.ctx.env.kind? ty = some (.result ok source))
    (hv : Operand K (K.ctx.env.ty ty) A s v)
    (hpropagatable : K.sound → Propagatable K.ctx.env source target) :
    Completes K .pass A s (propagatedError K.ctx span v source target)
      (Gives K (K.ctx.env.ty target)) := by
  unfold propagatedError
  split
  · next htarget => exact .pure h ⟨nofun, fun _ _ _ => htarget⟩
  · next hsource htarget => exact .inconsistent fun hs => (hpropagatable hs).2 htarget hsource
  · next hvalued _ =>
    refine .step h (extract_completes h hv hvalued fun _ _ => ⟨ok, source, hkind, rfl⟩)
      fun error A' s' _ h' herror => ?_
    exact ((convert_completes h' herror fun hs => (hpropagatable hs).1 hvalued).mono
      fun _ _ _ _ hw => .of_some hw).map

/-- A value is compared with a constant. -/
lemma compare_completes (h : Ready K A s) (hyields : yields inst = true) (hnone : inst.operands = [])
    (hvoid : inst.ty ≠ .void) (htypes : ∀ F, TypeRule F K.ctx.env.layouts inst)
    (hv : Operand K ty A s v) (hty : K.typed → s.builder.isReachable = true → ty = inst.ty) :
    Completes K .pass A s (do
      let expected ← insert inst
      some <$> insert (.icmp .eq v expected)) fun A' s' test =>
        ∃ w, test = some w ∧ Operand K .i1 A' s' w := by
  refine .step h (insert_const h hyields hnone hvoid htypes)
    fun expected A' s' hlow h' hexpected => ?_
  have hv := hlow.operand hv
  have htest : Completes K .pass A' s' (insert (.icmp .eq v expected)) (Operand K .i1) :=
    insert_completes (uses_two hv hexpected) h' rfl fun ht hr => ⟨?_, nofun⟩
  · exact (htest.mono fun _ _ _ _ hw => ⟨_, rfl, hw⟩).map
  · calc
      s'.builder.function.ty expected = inst.ty := (hexpected.hasTy ht hr).1
      _ = ty := (hty ht (hlow.reach hr)).symm
      _ = s'.builder.function.ty v := (hv.hasTy ht hr).1.symm

section Patterns

variable {scrutinee : Nat} {pattern : Pattern}
  (hpattern : K.Known → PatternObeys K.rules K.ctx.env.types K.decls scrutinee pattern)
  (hsite : K.Keeps s.builder.isReachable (.pattern (shapeOf pattern) scrutinee s.builder.isReachable))
include hpattern

/-- Patterns that always match are not tested. -/
lemma testPattern_irrefutable (h : Ready K A s)
    (hsubject : ∀ v ∈ subject, Operand K (K.ctx.env.ty scrutinee) A s v)
    (hirrefutable : pattern.isIrrefutable = true) :
    Completes K ⟨.pass, true⟩ A s (testPattern K.ctx span subject pattern) fun _ _ test =>
      test = none := by
  cases pattern with
  | wildcard => exact .may_bind (.pure h rfl)
  | bind var =>
    refine .last h (bindLocal_completes h (fun v hv => (hsubject v hv).cast fun ht _ => ?_)
      fun hs _ => (hpattern (.inl hs)).2 hs) fun _ A' s' _ h' _ => .pure h' rfl
    rw [← K.decls_ty, (hpattern (.inr ht)).1]
  | int | bool | ok | err => cases hirrefutable

include hsite

/-- Patterns that may fail are tested. -/
lemma testPattern_refutable (h : Ready K A s)
    (hsubject : Gives K (K.ctx.env.ty scrutinee) A s subject)
    (hrefutable : pattern.isIrrefutable = false) :
    Completes K .pass A s (testPattern K.ctx span subject pattern) fun A' s' test =>
      ∃ w, test = some w ∧ Operand K .i1 A' s' w := by
  -- a value is missing only where control does not get to
  have hmissing (hs : K.sound) (h : Valued K.ctx.env scrutinee ∧
      (K.strict = true → s.builder.isReachable = true)) (hnone : subject = none) :
      K.strict = false := by
    by_contra hstrict
    exact h.1 (hsubject.missing (.inl hs) (h.2 (Bool.eq_true_of_not_eq_false hstrict)) hnone)
  have htag (hresult : shapeOf pattern = .result)
      (hkind : K.Known → ∃ ok err, Core.payloadsOf? K.ctx.env.types scrutinee = some (ok, err))
      {f : Value → LowerM (Option Value)}
      (hf : ∀ tag A' s', Ready K A' s' → Operand K .i1 A' s' tag → Completes K .pass A' s' (f tag)
        fun A'' s'' test => ∃ w, test = some w ∧ Operand K .i1 A'' s'' w) :
      Completes K .pass A s (do
        let subject ← subjectValue span subject
        let tag ← insert (.extractField .i1 subject Layout.tagField)
        f tag) fun A' s' test => ∃ w, test = some w ∧ Operand K .i1 A' s' w := by
    rw [hresult] at hsite
    refine .step h (subjectValue_completes h hsubject fun hs => hmissing hs ?_)
      fun v A1 s1 _ h1 hv => ?_
    · obtain ⟨⟨ok, err, hpayloads⟩, hreached⟩ := hsite.selected hs
      exact ⟨(K.faithful (.inl hs)).valued_of_result (kind?_of_payloadsOf? hpayloads), hreached⟩
    · refine .step h1 (extract_completes h1 hv nofun fun ht _ => ?_) fun tag A2 s2 _ h2 htag =>
        hf tag A2 s2 h2 htag
      obtain ⟨ok, err, hpayloads⟩ := hkind (.inr ht)
      exact ⟨ok, err, kind?_of_payloadsOf? hpayloads, rfl⟩
  cases pattern with
  | wildcard | bind => cases hrefutable
  | int value =>
    refine .step h (subjectValue_completes h hsubject fun hs => hmissing hs (hsite.selected hs))
      fun v A' s' hlow h' hv => ?_
    refine compare_completes h' rfl rfl nofun (fun _ => trivial) hv fun ht hr => ?_
    rw [show scrutinee = _ from hsite.consistent ht (hlow.reach hr)]
    exact (K.faithful (.inr ht)).ty_int
  | bool value =>
    refine .step h (subjectValue_completes h hsubject fun hs => hmissing hs (hsite.selected hs))
      fun v A' s' hlow h' hv => ?_
    refine compare_completes h' rfl rfl nofun (fun _ => trivial) hv fun ht hr => ?_
    rw [show scrutinee = _ from hsite.consistent ht (hlow.reach hr)]
    exact (K.faithful (.inr ht)).ty_bool
  | ok var =>
    refine htag rfl (fun hk => ?_) fun tag A' s' h' htag => ?_
    · obtain ⟨ok, err, hpayloads, -⟩ := hpattern hk
      exact ⟨ok, err, hpayloads⟩
    · have hnot : Completes K .pass A' s' (insert (.unary .not .i1 tag)) (Operand K .i1) :=
        insert_completes (uses_one htag) h' rfl fun ht hr => ⟨(htag.hasTy ht hr).1, nofun⟩
      exact (hnot.mono fun _ _ _ _ hw => ⟨_, rfl, hw⟩).map
  | err var =>
    have herr := htag rfl (fun hk => by
      obtain ⟨ok, err, hpayloads, -⟩ := hpattern hk
      exact ⟨ok, err, hpayloads⟩) fun tag A' s' h' htag => Completes.pure h' ⟨tag, rfl, htag⟩
    exact herr

end Patterns

/-- The payload of a result is bound. -/
lemma bindPayload_completes (h : Ready K A s) {scrutinee index : Nat}
    (hsubject : ∀ v ∈ subject, Operand K (K.ctx.env.ty scrutinee) A s v)
    (hfield : K.typed → FieldOf K.ctx.env scrutinee index (K.ctx.env.ty (K.ctx.localType var)))
    (hsettled : K.sound → (K.decls.changes var || K.decls.fixed var) = true) :
    Completes K ⟨.pass, true⟩ A s (bindPayload K.ctx subject index var) fun _ _ _ => True := by
  have hbind {A' : Avail} {s' : LowerState} {payload : Option Value} (h' : Ready K A' s')
      (hpayload : ∀ v ∈ payload, Operand K (K.ctx.env.ty (K.ctx.localType var)) A' s' v) :
      Completes K ⟨.pass, true⟩ A' s' (bindLocal K.ctx var payload) fun _ _ _ => True :=
    bindLocal_completes h' hpayload fun hs _ => hsettled hs
  unfold bindPayload
  split
  · exact hbind h nofun
  · exact hbind h nofun
  · next hvalued =>
    have hextract := extract_completes h (hsubject _ rfl) hvalued fun ht _ => hfield ht
    refine .step h (hextract.mono fun _ _ _ _ hv => Gives.of_some hv).map
      fun payload A' s' _ h' hpayload => ?_
    exact hbind h' hpayload.operand

lemma bindPattern_completes (h : Ready K A s) {scrutinee : Nat} {pattern : Pattern}
    (hpattern : K.Known → PatternObeys K.rules K.ctx.env.types K.decls scrutinee pattern)
    (hsubject : ∀ v ∈ subject, Operand K (K.ctx.env.ty scrutinee) A s v) :
    Completes K ⟨.pass, true⟩ A s (bindPattern K.ctx subject pattern) fun _ _ _ => True := by
  unfold bindPattern
  split
  on_goal 3 => exact .may_bind (.pure h trivial)
  -- both kinds of payload are bound in the same way
  all_goals
    next var =>
    refine bindPayload_completes h hsubject (fun ht => ?_) fun hs => ?_
    · obtain ⟨ok, err, hpayloads, hvar⟩ := hpattern (.inr ht)
      refine ⟨ok, err, kind?_of_payloadsOf? hpayloads, ?_⟩
      rw [← K.decls_ty, (hvar var rfl).1]
      rfl
    · obtain ⟨ok, err, -, hvar⟩ := hpattern (.inl hs)
      exact (hvar var rfl).2 hs

end SsaLowering.Proofs
