import SsaLowering.Proofs.LoweringLoops

/-!
# The walk over a body

By induction over a body, lowering each piece of it completes. If the body keeps to the rules of its
setting, every expression of a type that has values is lowered to a value of that type, unless
control does not get behind it.
-/

namespace SsaLowering.Proofs

open Ir Lowering
open SsaLowering.Core (Local Pattern)

variable {K : Setting} {A : Avail} {s : LowerState} {α β : Type} {live b : Bool} {f g k : Flow}
  {ty actual : Nat} {value : Option Value} {x y : LowerM (Option Value)} {span : Span} {node : Nat}
  {good : Avail → LowerState → α → Prop}

/-! ### What pieces give -/

lemma Gives.arm (h : Gives K (K.ctx.env.ty actual) A s value)
    (hsite : K.Keeps s.builder.isReachable (.value ty actual)) :
    ArmGives K (K.ctx.env.ty ty) A s value := by
  refine fun hty => h.cast (fun ht hr => ?_) fun hk hr hvoid => absurd hvoid ?_
  · rw [hsite.consistent ht hr hty]
  · rcases hk with hs | ht
    · exact hsite.delivered hs hr hty
    · rw [hsite.consistent ht hr hty]
      exact hty

lemma Gives.tail (h : Gives K (K.ctx.env.ty actual) A s value)
    (hsite : K.Keeps s.builder.isReachable (.tail ty actual)) :
    Gives K (K.ctx.env.ty ty) A s value := by
  refine h.cast (fun ht hr => ?_) fun hk hr hvoid => ?_
  · rw [show actual = ty from hsite.consistent ht hr]
  · rcases hk with hs | ht
    · by_contra hvalued
      exact hsite.delivered hs hr hvalued hvoid
    · rwa [show actual = ty from hsite.consistent ht hr] at hvoid

section

variable {env : Environment} {kind : Source.StaticType} (h : Faithful env)
  (hkind : env.kind? ty = some kind)
include h hkind

lemma Faithful.valued (hunit : kind ≠ .unit) (hnever : kind ≠ .never) : Valued env ty := by
  have hfits := h.fits ty kind hkind
  rw [Valued]
  cases kind with
  | unit => exact absurd rfl hunit
  | never => exact absurd rfl hnever
  | bool | int | float | str => rw [show env.ty ty = _ from hfits]; simp
  | data => rw [hfits.1]; simp
  | result ok err =>
    obtain ⟨agg, -, hty, -⟩ := hfits
    simp [hty]

lemma Faithful.valued_of_binary {op : Core.BinaryOp}
    (hselect : ∀ left right, (selectBinary kind op left right).isSome) : Valued env ty := by
  refine h.valued hkind ?_ ?_
  · rintro rfl
    exact absurd (hselect ⟨0⟩ ⟨0⟩) (by simp [selectBinary])
  · rintro rfl
    exact absurd (hselect ⟨0⟩ ⟨0⟩) (by simp [selectBinary])

lemma Faithful.valued_of_unary {op : Source.UnaryOp}
    (hselect : ∀ value, (selectUnary kind op value).isSome) : Valued env ty := by
  refine h.valued hkind ?_ ?_
  · rintro rfl
    exact absurd (hselect ⟨0⟩) (by cases op <;> simp [selectUnary])
  · rintro rfl
    exact absurd (hselect ⟨0⟩) (by cases op <;> simp [selectUnary])

end

lemma Setting.valued_of_data (hs : K.sound) (hdata : IsData K.ctx.env.types ty) :
    Valued K.ctx.env ty := by
  obtain ⟨data, hdata⟩ := hdata
  simp [Valued, ((K.faithful (.inl hs)).data hdata).1]

/-! ### Putting pieces together -/

namespace Lowerable

lemma may_bind {x : LowerM α} (hx : Lowerable K live ⟨f, false⟩ x good) :
    Lowerable K live ⟨f, b⟩ x good :=
  fun _ _ h hreach => (hx h hreach).may_bind

lemma mono {x : LowerM α} {good' : Avail → LowerState → α → Prop}
    (hx : Lowerable K live ⟨f, b⟩ x good)
    (hgood : ∀ A s a, s.builder.isReachable = (live && f.behind) → good A s a → good' A s a) :
    Lowerable K live ⟨f, b⟩ x good' :=
  fun _ _ h hreach => (hx h hreach).mono fun A' s' a hlow ha => hgood A' s' a (by
    rw [hlow.reach_eq, hreach]
    rfl) ha

lemma located {x : LowerM α} (hx : Lowerable K live ⟨f, b⟩ x good) :
    Lowerable K live ⟨f, b⟩ (do locate span node; x) good :=
  fun _ _ h hreach => .step h (locate_completes h span node) fun _ _ _ hlow h' _ =>
    hx h' (hlow.reach_pass.trans hreach)

end Lowerable

/-- A value is put to use. -/
lemma use_lowerable {ty : Ty} (hx : Lowerable K live ⟨f, false⟩ x (Gives K ty))
    {m : Option Value → LowerM α} (hflow : f.andThen g = k)
    (hm : ∀ ⦃value A s⦄, Ready K A s → s.builder.isReachable = (live && f.behind) →
      Gives K ty A s value → Completes K ⟨g, b⟩ A s (m value) good) :
    Lowerable K live ⟨k, b⟩ (do
      let value ← x
      locate span node
      m value) good := by
  subst hflow
  refine hx.bind fun value A s h hreach hvalue => ?_
  refine .step h (locate_completes h span node) fun _ A' s' hlow h' _ => ?_
  exact hm h' (hlow.reach_pass.trans hreach) (hlow.gives hvalue)

/-- A value that has to be there is put to use. -/
lemma operand_lowerable (hx : Lowerable K live ⟨f, false⟩ x (Gives K (K.ctx.env.ty ty)))
    {operandSpan : Span} {m : Value → LowerM α} (hflow : f.andThen g = k)
    (hvalued : K.sound → Valued K.ctx.env ty)
    (hm : ∀ ⦃v A s⦄, Ready K A s → s.builder.isReachable = (live && f.behind) →
      Operand K (K.ctx.env.ty ty) A s v → Completes K ⟨g, b⟩ A s (m v) good) :
    Lowerable K live ⟨k, b⟩ (do
      let lowered ← x
      let value ← asOperand K.ctx operandSpan ty lowered
      m value) good := by
  subst hflow
  refine hx.bind fun lowered A s h hreach hlowered => ?_
  refine .step h (asOperand_completes h hlowered fun hs _ => hvalued hs) fun v A' s' hlow h' hv => ?_
  exact hm h' (hlow.reach_pass.trans hreach) hv

/-- A piece of code behind which nothing is left to do but to give a value. -/
lemma Completes.gives {x : LowerM Value} {ty : Ty} (hx : Completes K ⟨f, b⟩ A s x (Operand K ty)) :
    Completes K ⟨f, b⟩ A s (some <$> x) (Gives K ty) :=
  (hx.mono fun _ _ _ _ hv => .of_some hv).map

lemma locate_use {m : LowerM α} {v : Value} {ty : Ty} (h : Ready K A s) (hv : Operand K ty A s v)
    (hreach : s.builder.isReachable = live)
    (hm : ∀ ⦃A s⦄, Ready K A s → s.builder.isReachable = live → Operand K ty A s v →
      Completes K ⟨f, b⟩ A s m good) : Completes K ⟨f, b⟩ A s (do locate span node; m) good :=
  .step h (locate_completes h span node) fun _ _ _ hlow h' _ =>
    hm h' (hlow.reach_pass.trans hreach) (hlow.operand hv)

abbrev AllHeld (K : Setting) (A : Avail) (s : LowerState) (values : List Value) : Prop :=
  ∀ v ∈ values, ∃ ty, Operand K ty A s v

lemma args_lowerable {ty : Nat} (hx : Lowerable K live ⟨f, false⟩ x (Gives K (K.ctx.env.ty ty)))
    {rest : LowerM (List Value)}
    (hrest : Lowerable K (live && f.behind) ⟨g, false⟩ rest (AllHeld K)) :
    Lowerable K live ⟨f.andThen g, false⟩ (do
      let value ← match ← x with
        | some value => pure (some value)
        | none => undefOf K.ctx ty
      return value.toList ++ (← rest)) (AllHeld K) := by
  have hcons {value : Option Value} {A1 : Avail} {s1 : LowerState} (h1 : Ready K A1 s1)
      (hreach : s1.builder.isReachable = (live && f.behind)) {ty : Ty}
      (hvalue : Gives K ty A1 s1 value) :
      Completes K ⟨g, false⟩ A1 s1 (do return value.toList ++ (← rest)) (AllHeld K) := by
    refine .last h1 (hrest h1 hreach) fun values A2 s2 hlow h2 hvalues => .pure h2 fun v hv => ?_
    rcases List.mem_append.mp hv with hv | hv
    · exact ⟨ty, hlow.operand (hvalue.operand v (Option.mem_toList.mp hv))⟩
    · exact hvalues v hv
  refine hx.bind fun value A1 s1 h1 hreach hvalue => ?_
  cases value with
  | some value => exact hcons h1 hreach hvalue
  | none =>
    exact .step h1 (undefOf_completes h1 ty) fun value A2 s2 hlow h2 hvalue =>
      hcons h2 (hlow.reach_pass.trans hreach) hvalue

lemma inits_completes {ty : Ty} (hx : Lowerable K live ⟨f, false⟩ x (Gives K ty)) {rest : LowerM Unit}
    {agg index : Nat} {record : Value}
    (hrest : ∀ ⦃A s⦄, Ready K A s → s.builder.isReachable = (live && f.behind) →
      Operand K .ptr A s record → Completes K ⟨g, false⟩ A s rest fun _ _ _ => True)
    (h : Ready K A s) (hreach : s.builder.isReachable = live) (hrecord : Operand K .ptr A s record) :
    Completes K ⟨f.andThen g, false⟩ A s (do
      match ← x with
      | none => pure ()
      | some value => do
        locate span node
        storeField agg record index value
      rest) fun _ _ _ => True := by
  change Completes K (Course.andThen ⟨f, false⟩ ⟨g, false⟩) A s _ _
  refine .bind h (hx h hreach) fun value A1 s1 hlow1 h1 hvalue => ?_
  have hreach1 : s1.builder.isReachable = (live && f.behind) := by
    rw [hlow1.reach_eq, hreach]
    rfl
  have hrecord1 := hlow1.operand hrecord
  cases value with
  | none => exact hrest h1 hreach1 hrecord1
  | some value =>
    refine .step h1 (locate_completes h1 span node) fun _ A2 s2 hlow2 h2 _ => ?_
    have hrecord2 := hlow2.operand hrecord1
    have hvalue2 := hlow2.operand (hvalue.operand value rfl)
    refine .step h2 (storeField_completes h2 agg index hrecord2 hvalue2)
      fun _ A3 s3 hlow3 h3 _ => hrest h3 ?_ (hlow3.operand hrecord2)
    rw [hlow3.reach_pass, hlow2.reach_pass, hreach1]

lemma data_lowerable {inits : Nat → Value → LowerM Unit}
    (hdata : K.Known → IsData K.ctx.env.types ty)
    (hinits : ∀ ⦃agg record A s⦄, Ready K A s → s.builder.isReachable = live →
      Operand K .ptr A s record → Completes K ⟨f, false⟩ A s (inits agg record) fun _ _ _ => True) :
    Lowerable K live ⟨f, false⟩ (do
      locate span node
      let agg ← layoutOf K.ctx span ty
      let record ← insert (.new agg)
      inits agg record
      return some record) (Gives K (K.ctx.env.ty ty)) := by
  refine Lowerable.located fun A s h hreach => ?_
  have hlayout (hk : K.Known) : K.ctx.env.ty ty = .ptr ∧ ∃ agg layout,
      K.ctx.env.agg? ty = some agg ∧ K.ctx.env.layouts.get? agg = some layout := by
    obtain ⟨data, hdata⟩ := hdata hk
    obtain ⟨hty, agg, name, fields, hagg, hlayout⟩ := (K.faithful hk).data hdata
    exact ⟨hty, agg, _, hagg, hlayout⟩
  refine .step h (layoutOf_completes h fun hs => ?_) fun agg A1 s1 hlow1 h1 hagg => ?_
  · obtain ⟨-, agg, -, hagg, -⟩ := hlayout (.inl hs)
    exact ⟨agg, hagg⟩
  · refine .step h1 (insert_completes nofun h1 rfl fun ht _ => ⟨?_, nofun⟩)
      fun record A2 s2 hlow2 h2 hrecord => ?_
    · obtain ⟨-, agg', layout, hagg', hlayout⟩ := hlayout (.inr ht)
      obtain rfl := Option.some.inj (hagg.symm.trans hagg')
      exact ⟨layout, hlayout⟩
    · have hreach2 : s2.builder.isReachable = live := by
        rw [hlow2.reach_pass, hlow1.reach_pass, hreach]
      refine .last h2 (hinits h2 hreach2 hrecord) fun _ A3 s3 hlow3 h3 _ => .pure h3 ?_
      exact .of_some ((hlow3.operand hrecord).cast fun ht _ => (hlayout (.inr ht)).1.symm)

lemma ifElse_lowerable {condTy thenTy elseTy : Nat} {h : Flow}
    {condSpan : Span} {z : LowerM (Option Value)}
    (hx : Lowerable K live ⟨f, false⟩ x (Gives K (K.ctx.env.ty condTy)))
    (hcond : K.Keeps (live && f.behind) (.cond condTy))
    (hy : Lowerable K (live && f.behind) ⟨g, false⟩ y (Gives K (K.ctx.env.ty thenTy)))
    (hthen : K.Keeps (live && f.behind && g.behind) (.value ty thenTy))
    (hz : Lowerable K (live && f.behind) ⟨h, false⟩ z (Gives K (K.ctx.env.ty elseTy)))
    (helse : K.Keeps (live && f.behind && h.behind) (.value ty elseTy)) :
    Lowerable K live ⟨f.andThen (g.orElse h), false⟩ (do
      let lowered ← x
      let test ← asOperand K.ctx condSpan condTy lowered
      locate span node
      let thenBlock ← createBlock "if.then"
      let elseBlock ← createBlock "if.else"
      emit (.condBr test thenBlock elseBlock)
      switchTo thenBlock
      let thenEnd ← finishArm (← y)
      switchTo elseBlock
      let elseEnd ← finishArm (← z)
      mergeArms K.ctx span node ty "if.merge" (thenEnd.toList ++ elseEnd.toList))
      (Gives K (K.ctx.env.ty ty)) := by
  refine operand_lowerable hx rfl (fun hs => hcond.selected hs) fun test A s hs hreach htest => ?_
  refine locate_use hs htest hreach fun A s hs hreach htest => ?_
  refine branch_completes hs (htest.cast fun ht hr => ?_) ?_ ?_ span node
  · rw [show condTy = _ from hcond.consistent ht (hreach ▸ hr)]
    exact (K.faithful (.inr ht)).ty_bool
  · rw [hreach]
    exact hy.mono fun A s v hreach hv => hv.arm (hreach ▸ hthen)
  · rw [hreach]
    exact hz.mono fun A s v hreach hv => hv.arm (hreach ▸ helse)

lemma binary_lowerable {op : Core.BinaryOp} {lhsTy rhsTy : Nat} {lhsSpan rhsSpan : Span}
    (hx : Lowerable K live ⟨f, false⟩ x (Gives K (K.ctx.env.ty lhsTy)))
    (hy : Lowerable K (live && f.behind) ⟨g, false⟩ y (Gives K (K.ctx.env.ty rhsTy)))
    (hsite : K.Keeps (live && f.behind && g.behind) (.binary op lhsTy rhsTy ty)) :
    Lowerable K live ⟨f.andThen g, false⟩ (do
      let lowered ← x
      let left ← asOperand K.ctx lhsSpan lhsTy lowered
      let lowered ← y
      let right ← asOperand K.ctx rhsSpan rhsTy lowered
      locate span node
      some <$> lowerBinary K.ctx span op lhsTy left right) (Gives K (K.ctx.env.ty ty)) := by
  refine operand_lowerable hx rfl (fun hs => ?_) fun left A s h hreach hleft => ?_
  · obtain ⟨⟨kind, hkind, hselect⟩, -⟩ := hsite.selected hs
    exact (K.faithful (.inl hs)).valued_of_binary hkind hselect
  · have hpass : Course.andThen ⟨g, false⟩ .pass = ⟨g, false⟩ := by simp [Course.andThen, Course.pass]
    rw [← hpass]
    refine .bind h (hy h hreach) fun lowered A1 s1 hlow1 h1 hlowered => ?_
    have hreach1 : s1.builder.isReachable = (live && f.behind && g.behind) := by
      rw [hlow1.reach_eq, hreach]
      rfl
    refine .step h1 (asOperand_completes h1 hlowered fun hs _ => (hsite.selected hs).2)
      fun right A2 s2 hlow2 h2 hright => ?_
    refine .step h2 (locate_completes h2 span node) fun _ A3 s3 hlow3 h3 _ => ?_
    refine (lowerBinary_completes h3 (hlow3.operand (hlow2.operand (hlow1.operand hleft)))
      (hlow3.operand hright) ?_).gives
    rwa [hlow3.reach_pass, hlow2.reach_pass, hreach1]

lemma assignField_lowerable {base index : Nat} {baseSpan : Span} {ty : Ty}
    (hx : Lowerable K live ⟨f, false⟩ x (Gives K (K.ctx.env.ty base)))
    (hdata : K.Known → IsData K.ctx.env.types base)
    (hy : Lowerable K (live && f.behind) ⟨g, false⟩ y (Gives K ty)) :
    Lowerable K live ⟨f.andThen g, false⟩ (do
      let lowered ← x
      let record ← asOperand K.ctx baseSpan base lowered
      let value ← y
      locate span node
      assignField K.ctx span base record index value) fun _ _ _ => True := by
  refine operand_lowerable hx rfl (fun hs => K.valued_of_data hs (hdata (.inl hs)))
    fun record A s h hreach hrecord => ?_
  refine .last h (hy h hreach) fun value A1 s1 hlow1 h1 hvalue => ?_
  refine .step h1 (locate_completes h1 span node) fun _ A2 s2 hlow2 h2 _ => ?_
  exact assignField_completes h2 hdata (hlow2.operand (hlow1.operand hrecord))
    (hlow2.gives hvalue).operand

lemma call_lowerable {args : LowerM (List Value)} {callee : String}
    (hargs : Lowerable K live ⟨f, false⟩ args (AllHeld K)) :
    Lowerable K live ⟨f.andThen (if ty = Source.TypeTable.never then .stop else .pass), false⟩ (do
      let values ← args
      locate span node
      lowerCall K.ctx ty callee values) (Gives K (K.ctx.env.ty ty)) := by
  refine hargs.bind fun values A s h _ hvalues => ?_
  refine .step h (locate_completes h span node) fun _ A1 s1 hlow h1 _ => ?_
  refine lowerCall_completes h1 ty callee fun v hv => ?_
  obtain ⟨ty, hv⟩ := hvalues v hv
  exact ⟨ty, hlow.operand hv⟩

lemma field_completes (h : Ready K A s) {base index : Nat} {record : Value}
    (hdata : K.Known → IsData K.ctx.env.types base)
    (hrecord : Operand K (K.ctx.env.ty base) A s record) : Completes K ⟨.pass, false⟩ A s (do
      let agg ← layoutOf K.ctx span base
      readField K.ctx ty agg record index) (Gives K (K.ctx.env.ty ty)) := by
  refine .step h (layoutOf_completes h fun hs => ?_) fun agg A1 s1 hlow h1 _ => ?_
  · obtain ⟨data, hdata⟩ := hdata (.inl hs)
    obtain ⟨-, agg, -, -, hagg, -⟩ := (K.faithful (.inl hs)).data hdata
    exact ⟨agg, hagg⟩
  · refine readField_completes h1 ty agg index ((hlow.operand hrecord).cast fun ht _ => ?_)
    exact (hdata (.inr ht)).elim fun _ hdata => ((K.faithful (.inr ht)).data hdata).1

/-! ### Loops -/

/-- The rest of a loop completes once its body is next. -/
abbrev Turns (K : Setting) (live hasStep : Bool) (rest : LoopBlocks → LowerM Unit) (cond : Option Flow)
    (k : Flow) : Prop :=
  ∀ ⦃A A' s s' blocks⦄, Ready K A s → s.builder.isReachable = live →
    LoopEntry K A s A' s' hasStep blocks (cond.getD .pass) (cond.elim false Flow.behind) →
    Ends K (rest blocks) s' fun _ s'' => ∃ A'', Lowers K A s A'' s'' (Course.way ⟨k, false⟩ s.loops)

section Loops

variable {cond : Option Flow} {hasStep : Bool} {rest : LoopBlocks → LowerM Unit}

lemma loop_behind (step : Option Flow) : (cond.elim false Flow.behind ||
    (cond.getD .pass).behind && g.exits) = (Flow.loop cond g step).behind := by
  cases cond with
  | none => rfl
  | some f => cases hf : f.behind <;> simp [Flow.loop, hf]

lemma body_turns {ty : Ty}
    (hx : Lowerable K (live && (cond.getD .pass).behind) ⟨g, false⟩ x (Gives K ty)) :
    Turns K live false (fun blocks => do
      enterLoop blocks
      discard x
      locate span node
      emit (.br blocks.next)
      leaveLoop
      switchTo blocks.exit) cond (.loop cond g none) := by
  rintro A A' s s' blocks h rfl hentry
  refine (loopRest_ends span node h hentry hx).mono fun _ s'' ⟨A'', hlow⟩ =>
    ⟨A'', hlow.congr (fun _ => loop_behind none) (fun t _ => ?_) id⟩
  simp [Course.way, Flow.leadsTo_loop]

lemma step_turns {ty ty' : Ty}
    (hx : Lowerable K (live && (cond.getD .pass).behind) ⟨g, false⟩ x (Gives K ty))
    (hy : Lowerable K (live && Flow.again cond g) ⟨k, false⟩ y (Gives K ty')) :
    Turns K live true (fun blocks => do
      enterLoop blocks
      discard x
      locate span node
      emit (.br blocks.next)
      leaveLoop
      switchTo blocks.next
      discard y
      locate span node
      emit (.br blocks.header)
      switchTo blocks.exit) cond (.loop cond g (some k)) := by
  rintro A A' s s' blocks h rfl hentry
  refine (loopRest_step_ends span node h hentry hx hy).mono fun _ s'' ⟨A'', hlow⟩ =>
    ⟨A'', hlow.congr (fun _ => loop_behind (some k)) (fun t _ => ?_) id⟩
  simp [Course.way, Flow.leadsTo_loop, Flow.again]

lemma loop_lowerable (hrest : Turns K live hasStep rest none k) : Lowerable K live ⟨k, false⟩ (do
    locate span node
    let blocks ← openLoop false hasStep
    rest blocks) fun _ _ _ => True := by
  refine Lowerable.located fun A s h hreach => ?_
  refine .of_lowers h ((openLoop_ends h false hasStep).bind fun blocks s1 ⟨A1, hplan⟩ =>
    hrest h hreach (hplan.entry h)) (fun _ s' ⟨A', hlow⟩ => ⟨A', hlow, trivial⟩) rfl

lemma while_lowerable {condSpan : Span}
    (hx : Lowerable K live ⟨f, false⟩ x (Gives K (K.ctx.env.ty ty)))
    (hsite : K.Keeps (live && f.behind) (.cond ty)) (hrest : Turns K live hasStep rest (some f) k) :
    Lowerable K live ⟨k, false⟩ (do
      locate span node
      let blocks ← openLoop true hasStep
      switchTo blocks.header
      let lowered ← x
      let test ← asOperand K.ctx condSpan ty lowered
      locate span node
      emit (.condBr test blocks.body blocks.exit)
      rest blocks) fun _ _ _ => True := by
  refine Lowerable.located fun A s h hreach => ?_
  subst hreach
  refine .of_lowers h ((openLoop_ends h true hasStep).bind fun blocks s1 ⟨A1, hplan⟩ =>
    loopCond_ends h hplan hx hsite span node condSpan fun A2 s2 hentry => hrest h rfl hentry)
    (fun _ s' ⟨A', hlow⟩ => ⟨A', hlow, trivial⟩) rfl

end Loops

/-! ### The induction -/

/-- The arms of a match as a piece of code. -/
def ArmsLowerable (K : Setting) (live : Bool) (ty scrutinee : Nat)
    (arms : Option Value → LowerM (List ArmEnd × Bool)) (f : Flow) : Prop :=
  ∀ ⦃subject A s⦄, Ready K A s → s.builder.isReachable = live →
    Gives K (K.ctx.env.ty scrutinee) A s subject →
    Ends K (arms subject) s fun result s' => ∃ A', ArmsRun K (K.ctx.env.ty ty) A s A' s' result f

lemma noArms_lowerable {scrutinee : Nat} :
    ArmsLowerable K live ty scrutinee (fun _ => pure ([], false)) .stop := by
  intro subject A s h hreach _
  refine ⟨A, ⟨true, h.refl.toStaged.mono (by simp) |>.congr (fun _ => rfl) ?_ id⟩, ⟨by simp, by simp⟩,
    fun _ => ⟨h, by simp⟩, by simp⟩
  simp [Course.way, Course.pass]

lemma arms_lowerable {scrutinee : Nat} {pattern : Pattern}
    {rest : Option Value → LowerM (List ArmEnd × Bool)}
    (hpattern : K.Known → PatternObeys K.rules K.ctx.env.types K.decls scrutinee pattern)
    (hsite : K.Keeps live (.pattern (shapeOf pattern) scrutinee live))
    (hx : Lowerable K live ⟨f, false⟩ x (ArmGives K (K.ctx.env.ty ty)))
    (hrest : ArmsLowerable K (live && !pattern.isIrrefutable) ty scrutinee rest g) :
    ArmsLowerable K live ty scrutinee
      (fun subject => armSteps K.ctx span node subject pattern x (rest subject))
      (if pattern.isIrrefutable then f else f.orElse g) := by
  rintro subject A s h rfl hsubject
  split
  · next hirrefutable => exact armSteps_irrefutable h hsubject hpattern hirrefutable hx
  · next hnot =>
    have hrefutable := Bool.eq_false_of_not_eq_true hnot
    refine armSteps_refutable h hsubject hpattern hsite hrefutable hx fun A' s' h' hreach hsubject' =>
      hrest h' ?_ hsubject'
    rw [hreach, hrefutable, Bool.not_false, Bool.and_true]

section Induction

mutual

theorem lowerBlock_lowerable {live : Bool} : ∀ block,
    (K.Known → BlockObeys K.rules K.ctx.env.types K.decls live block) →
      Lowerable K live ⟨flowOfBlock block, false⟩ (lowerBlock K.ctx block)
        (Gives K (K.ctx.env.ty (blockType block)))
  | ⟨_, _, stmts, none⟩, h =>
    block_lowerable (lowerStmts_lowerable stmts h) (Flow.andThen_pass _) fun _ _ hs _ => .pure hs
      ⟨nofun, fun hk _ _ => (K.faithful hk).ty_unit⟩
  | ⟨_, _, stmts, some tail⟩, h =>
    block_lowerable (lowerStmts_lowerable stmts fun hk => (h hk).1) rfl
      (lowerExpr_lowerable tail fun hk => (h hk).2)

theorem lowerStmts_lowerable {live : Bool} : ∀ stmts,
    (K.Known → StmtsObey K.rules K.ctx.env.types K.decls live stmts) →
      Lowerable K live ⟨flowOfStmts stmts, true⟩ (lowerStmts K.ctx stmts) fun _ _ _ => True
  | [], _ => fun _ _ hs _ => .may_bind (.pure hs trivial)
  | stmt :: rest, h =>
    (lowerStmt_lowerable stmt fun hk => (h hk).1).bind fun _ _ _ hs hreach _ =>
      lowerStmts_lowerable rest (fun hk => (h hk).2) hs hreach

theorem lowerStmt_lowerable {live : Bool} : ∀ stmt,
    (K.Known → StmtObeys K.rules K.ctx.env.types K.decls live stmt) →
      Lowerable K live ⟨flowOfStmt stmt, true⟩ (lowerStmt K.ctx stmt) fun _ _ _ => True
  | ⟨node, span, .letVar var none⟩, _ =>
    .located fun _ _ hs _ => bindLocal_completes hs (by simp) (by simp)
  | ⟨node, span, .letVar var (some init)⟩, h =>
    use_lowerable (lowerExpr_lowerable init fun hk => (h hk).1) (Flow.andThen_pass _)
      fun _ _ _ hs hreach hvalue => bindLocal_completes hs (fun v hv => (hvalue.operand v hv).cast
        fun ht hr => by
          rw [show init.ty = _ from (((h (.inr ht)).2.1.2 (hreach ▸ hr)).2 ht), K.decls_ty])
        fun hk _ => (h (.inl hk)).2.2 hk
  | ⟨node, span, .assign (.localVar var) value⟩, h =>
    (use_lowerable (lowerExpr_lowerable value fun hk => (h hk).1) (Flow.andThen_pass _)
      fun _ _ _ hs hreach hvalue => assignLocal_completes hs hvalue.operand
        (hreach ▸ fun hk => (h hk).2)).may_bind
  | ⟨node, span, .assign (.globalVar name) value⟩, h =>
    (use_lowerable (lowerExpr_lowerable value h) (Flow.andThen_pass _) fun _ _ _ hs _ hvalue =>
      assignGlobal_completes hs hvalue.operand).may_bind
  | ⟨node, span, .assign (.field base index) value⟩, h =>
    (assignField_lowerable (lowerExpr_lowerable base fun hk => (h hk).1) (fun hk => (h hk).2.1)
      (lowerExpr_lowerable value fun hk => (h hk).2.2)).may_bind
  | ⟨_, _, .expr value⟩, h =>
    .may_bind fun _ _ hs hreach => (lowerExpr_lowerable value h hs hreach).ignore
  | ⟨node, span, .ret none⟩, _ =>
    .may_bind (.located fun _ _ hs _ => return_completes hs (by simp))
  | ⟨node, span, .ret (some value)⟩, h =>
    (use_lowerable (lowerExpr_lowerable value fun hk => (h hk).1) rfl fun _ _ _ hs hreach hvalue =>
      return_completes hs fun v hv => ⟨_, hvalue.operand v hv, fun ht hr hvalued => by
        rw [((h (.inr ht)).2.2 (hreach ▸ hr)).2 ht hvalued]⟩).may_bind
  | ⟨node, span, .breakLoop⟩, _ =>
    .may_bind (.located fun _ _ hs _ => jump_completes hs span false)
  | ⟨node, span, .continueLoop⟩, _ =>
    .may_bind (.located fun _ _ hs _ => jump_completes hs span true)
  | ⟨node, span, .loop none body none⟩, h =>
    (loop_lowerable (body_turns (lowerBlock_lowerable body (by
      simpa [StmtObeys] using h)))).may_bind
  | ⟨node, span, .loop none body (some step)⟩, h =>
    (loop_lowerable (step_turns (lowerBlock_lowerable body (by simpa using fun hk => (h hk).1))
      (lowerBlock_lowerable step fun hk => (h hk).2))).may_bind
  | ⟨node, span, .loop (some cond) body none⟩, h =>
    (while_lowerable (lowerExpr_lowerable cond fun hk => (h hk).1) (fun hk => (h hk).2.1)
      (body_turns (lowerBlock_lowerable body fun hk => (h hk).2.2))).may_bind
  | ⟨node, span, .loop (some cond) body (some step)⟩, h =>
    (while_lowerable (lowerExpr_lowerable cond fun hk => (h hk).1) (fun hk => (h hk).2.1)
      (step_turns (lowerBlock_lowerable body fun hk => (h hk).2.2.1)
        (lowerBlock_lowerable step fun hk => (h hk).2.2.2))).may_bind

theorem lowerExpr_lowerable {live : Bool} : ∀ expr,
    (K.Known → ExprObeys K.rules K.ctx.env.types K.decls live expr) →
      Lowerable K live ⟨flowOfExpr expr, false⟩ (lowerExpr K.ctx expr)
        (Gives K (K.ctx.env.ty expr.ty))
  | ⟨node, span, _, .literal value⟩, h =>
    .located fun _ _ hs hreach => lowerLiteral_completes hs (hreach ▸ h)
  | ⟨node, span, ty, .localVar var⟩, h =>
    .located fun _ _ hs hreach => readLocal_completes hs fun hk hr => h hk (hreach ▸ hr)
  | ⟨node, span, ty, .globalVar name⟩, h =>
    .located fun _ _ hs hreach => readGlobal_completes hs (hreach ▸ h)
  | ⟨node, span, _, .binary op lhs rhs⟩, h =>
    binary_lowerable (lowerExpr_lowerable lhs fun hk => (h hk).1)
      (lowerExpr_lowerable rhs fun hk => (h hk).2.1) fun hk => (h hk).2.2
  | ⟨node, span, _, .unary op operand⟩, h =>
    operand_lowerable (lowerExpr_lowerable operand fun hk => (h hk).1) (Flow.andThen_pass _)
      (fun hs => by
        obtain ⟨kind, hkind, hselect⟩ := (h (.inl hs)).2.1 hs
        exact (K.faithful (.inl hs)).valued_of_unary hkind hselect)
      fun _ _ _ hs hreach hv => locate_use hs hv hreach fun _ _ hs hreach hv =>
        (lowerUnary_completes hs hv (hreach ▸ fun hk => (h hk).2)).gives
  | ⟨node, span, _, .cast operand⟩, h =>
    operand_lowerable (lowerExpr_lowerable operand fun hk => (h hk).1) (Flow.andThen_pass _)
      (fun hs => ((h (.inl hs)).2.1 hs).1)
      fun _ _ _ hs hreach hv => locate_use hs hv hreach fun _ _ hs _ hv =>
        (convert_completes hs hv fun hk => ((h (.inl hk)).2.1 hk).2).gives
  | ⟨node, span, ty, .call callee args⟩, h =>
    call_lowerable (lowerArgs_lowerable args h)
  | ⟨node, span, ty, .field base index⟩, h =>
    operand_lowerable (lowerExpr_lowerable base fun hk => (h hk).1) (Flow.andThen_pass _)
      (fun hs => K.valued_of_data hs (h (.inl hs)).2)
      fun _ _ _ hs hreach hv => locate_use hs hv hreach fun _ _ hs _ hv =>
        field_completes hs (fun hk => (h hk).2) hv
  | ⟨node, span, ty, .data inits⟩, h =>
    data_lowerable (fun hk => (h hk).1) fun _ _ _ _ hs hreach hrecord =>
      lowerInits_completes inits (fun hk => (h hk).2) hs hreach hrecord
  | ⟨node, span, ty, .ok value⟩, h =>
    use_lowerable (lowerExpr_lowerable value fun hk => (h hk).1) (Flow.andThen_pass _)
      fun _ _ _ hs hreach hvalue =>
        (makeResult_completes hs hvalue (hreach ▸ fun hk => (h hk).2)).gives
  | ⟨node, span, ty, .err value⟩, h =>
    use_lowerable (lowerExpr_lowerable value fun hk => (h hk).1) (Flow.andThen_pass _)
      fun _ _ _ hs hreach hvalue =>
        (makeResult_completes hs hvalue (hreach ▸ fun hk => (h hk).2)).gives
  | ⟨node, span, ty, .ifElse cond body otherwise⟩, h =>
    ifElse_lowerable (lowerExpr_lowerable cond fun hk => (h hk).1) (fun hk => (h hk).2.1)
      (lowerBlock_lowerable body fun hk => (h hk).2.2.1) (fun hk => (h hk).2.2.2.1)
      (lowerBlock_lowerable otherwise fun hk => (h hk).2.2.2.2.1) fun hk => (h hk).2.2.2.2.2
  | ⟨node, span, ty, .matchOn scrutinee arms⟩, h =>
    matchOn_lowerable (lowerExpr_lowerable scrutinee fun hk => (h hk).1)
      (lowerArms_lowerable arms fun hk => (h hk).2) span node
  | ⟨_, _, ty, .block body⟩, h =>
    (lowerBlock_lowerable body fun hk => (h hk).1).mono fun _ _ _ hreach hvalue =>
      hvalue.tail (hreach ▸ fun hk => (h hk).2)
  | ⟨node, span, _, .propagate value⟩, h =>
    operand_lowerable (lowerExpr_lowerable value fun hk => (h hk).1) (Flow.andThen_pass _)
      (fun hs => by
        obtain ⟨ok, err, _, _, hkind, -⟩ := (h (.inl hs)).2.1 hs
        exact (K.faithful (.inl hs)).valued_of_result hkind)
      fun _ _ _ hs hreach hv => locate_use hs hv hreach fun _ _ hs hreach hv =>
        propagate_completes hs hv (hreach ▸ fun hk => (h hk).2) span

theorem lowerArgs_lowerable {live : Bool} : ∀ args,
    (K.Known → ArgsObey K.rules K.ctx.env.types K.decls live args) →
      Lowerable K live ⟨flowOfArgs args, false⟩ (lowerArgs K.ctx args) (AllHeld K)
  | [], _ => fun _ _ hs _ => .pure hs (by simp [AllHeld])
  | arg :: rest, h =>
    args_lowerable (lowerExpr_lowerable arg fun hk => (h hk).1)
      (lowerArgs_lowerable rest fun hk => (h hk).2)

theorem lowerInits_completes {live : Bool} : ∀ inits,
    (K.Known → InitsObey K.rules K.ctx.env.types K.decls live inits) →
      ∀ {span : Span} {node agg : Nat} {record : Value} {A : Avail} {s : LowerState}, Ready K A s →
        s.builder.isReachable = live → Operand K .ptr A s record →
        Completes K ⟨flowOfInits inits, false⟩ A s (lowerInits K.ctx span node agg record inits)
          fun _ _ _ => True
  | [], _, _, _, _, _, _, _, hs, _, _ => .pure hs trivial
  | ⟨_, value⟩ :: rest, h, _, _, _, _, _, _, hs, hreach, hrecord =>
    inits_completes (lowerExpr_lowerable value fun hk => (h hk).1)
      (fun _ _ hs hreach hrecord => lowerInits_completes rest (fun hk => (h hk).2) hs hreach hrecord)
      hs hreach hrecord

theorem lowerArms_lowerable {live : Bool} {ty scrutinee : Nat} : ∀ arms,
    (K.Known → ArmsObey K.rules K.ctx.env.types K.decls live ty scrutinee arms) →
      ArmsLowerable K live ty scrutinee (fun subject => lowerArms K.ctx subject arms)
        (flowOfArms arms)
  | [], _ => noArms_lowerable
  | ⟨_, body, _⟩ :: rest, h =>
    arms_lowerable (fun hk => (h hk).1) (fun hk => (h hk).2.1)
      ((lowerExpr_lowerable body fun hk => (h hk).2.2.1).mono fun _ _ _ hreach hvalue =>
        hvalue.arm (hreach ▸ fun hk => (h hk).2.2.2.1))
      (lowerArms_lowerable rest fun hk => (h hk).2.2.2.2)

end

end Induction

end SsaLowering.Proofs
