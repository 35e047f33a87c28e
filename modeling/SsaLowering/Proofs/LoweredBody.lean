import SsaLowering.Proofs.FinishedCode
import SsaLowering.Proofs.LoweringWalk

/-!
# Lowered bodies

Lowering a body starts with the parameters, in the entry block, and ends where nothing is left open.
So a body is lowered to a well-formed function, whatever its types, unless the body itself is
inconsistent.
-/

namespace SsaLowering.Proofs

open Ir Lowering
open SsaLowering.Core (Local Body)
open Ir.Builder (firstBlock HeadLonger)

/-! ### Parameters -/

def nothing : Avail :=
  fun _ _ => False

/-- Lowering has made parameters, and nothing else. -/
structure Opening (K : Setting) (header : String × Ty) (s : LowerState) : Prop where
  header_eq : s.builder.header = header
  coherent : Coherent nothing s.builder
  current_eq : s.builder.current = firstBlock
  single : s.builder.function.blocks.size = 1
  head_eq : s.builder.head = s.builder.function.params
  code_eq : s.builder.code firstBlock = []
  loops_eq : s.loops = []
  notes_eq : s.notes = []
  lookup_eq : ∀ var, s.scopes.lookup var = none
  typed : K.typed → Typed K.ctx s.builder

variable {K : Setting} {A : Avail} {s : LowerState} {header : String × Ty}

namespace Opening

lemma ready (h : Opening K header s) : Ready K nothing s where
  coherent := h.coherent
  isOpen := by
    refine ⟨by rw [h.current_eq, h.single]; exact Nat.one_pos, ?_⟩
    rintro ⟨v, hlast, -⟩
    have hmem : v ∈ s.builder.code s.builder.current := List.mem_of_getLast? hlast
    rw [h.current_eq, h.code_eq] at hmem
    cases hmem
  loops := by simp [h.loops_eq]
  bindings var binding hlookup := by
    rw [h.lookup_eq] at hlookup
    cases hlookup
  typed := h.typed

lemma reach (h : Opening K header s) : s.builder.isReachable = true := by
  rw [Builder.isReachable, h.current_eq]
  exact h.coherent.live_first

lemma formed_start {c : Code} (hhead : c.head = []) (hcode : ∀ t, c.code t = [])
    (hhome : ∀ v, c.home v = none) (hpreds : ∀ t, c.preds t = []) (hparams : c.params = [])
    (hblocks : c.blocks = 1) (hvalues : c.values = 0) : Formed nothing c where
  nonempty := by
    rw [hblocks]
    exact Nat.one_pos
  insts t before v after heq := by simp [hcode] at heq
  code_nodup t := by simp [hcode]
  head_nodup := by simp [hhead]
  head_home v hv := by simp [hhead] at hv
  placed v t ht := by simp [hhome] at ht
  homed v := by simp [hhome, hvalues]
  head_eq := ⟨[], by simp [hhead, hparams], by simp⟩
  params_eq i v hv := by simp [hparams] at hv
  edges p t := by simp [hpreds, Code.exits, hcode]
  entry_avail _ hv := hv
  avail_exists _ _ hv := hv.elim

lemma start (K : Setting) (name : String) (span : Span) (node : Nat) :
    Opening K (name, K.ctx.env.ty K.ctx.body.ret)
      { builder := Builder.start name (K.ctx.env.ty K.ctx.body.ret) span node } := by
  have hhead : (Builder.start name (K.ctx.env.ty K.ctx.body.ret) span node).head = [] := rfl
  have hcode := Builder.code_start name (K.ctx.env.ty K.ctx.body.ret) span node
  have hlive (t : Block) :
      (Builder.start name (K.ctx.env.ty K.ctx.body.ret) span node).isLive t = true ↔
        t = firstBlock := by
    rw [Builder.isLive_start, decide_eq_true_eq]
  refine ⟨rfl, ⟨⟨(hlive _).mpr rfl, fun t ht => ?_, fun p t _ ht => ?_, fun t ht => ?_⟩,
    Builder.start_rooted .., ?_⟩, rfl, rfl, hhead, hcode _, rfl, rfl, fun _ => rfl, fun _ => ?_⟩
  · rw [(hlive t).mp ht]
    exact Nat.one_pos
  · rw [Code.exits, show (codeOf _).code p = [] from hcode p] at ht
    cases ht
  · exact (hlive t).mp ht ▸ .at_entry
  · exact formed_start hhead hcode (fun _ => rfl) (Builder.preds_start name _ span node) rfl rfl rfl
  · refine ⟨rfl, ?_, fun t _ v hv => ?_⟩
    · rintro v held pinned ⟨⟩
    · rw [hcode] at hv
      cases hv

lemma enterScope (h : Opening K header s) : Opening K header (inScope s) :=
  { h with }

lemma param_ends (h : Opening K header s) {ty : Ty} (hty : ty ≠ .void) :
    Ends K (build fun builder => builder.param ty) s fun v s' => Opening K header s' ∧
      Operand K ty nothing s' v ∧
      ∀ held w, Operand K held nothing s w → Operand K held nothing s' w := by
  obtain ⟨hnext, hlonger, hparams⟩ := Builder.param_headLonger h.coherent.rooted ty
  have hcode : codeOf (s.builder.param ty).2 = (codeOf s.builder).addParam ty := by
    rw [codeOf_headLonger hlonger, hparams]
    rfl
  have hextends : Extends nothing (codeOf s.builder) nothing (codeOf (s.builder.param ty).2) := by
    rw [hcode]
    exact Formed.extends_addParam nothing (codeOf s.builder) ty
  have hnil (t : Block) : (s.builder.param ty).2.code t = s.builder.code t := hlonger.code_eq t
  have hcoherent : Coherent nothing (s.builder.param ty).2 := by
    refine ⟨h.coherent.toMarksFollow.congr hlonger.live_eq hlonger.blocks_size.ge fun p =>
      h.coherent.formed.exits_congr (hnil p) hextends.inst_eq, hlonger.rooted, ?_⟩
    rw [hcode]
    exact h.coherent.formed.addParam h.head_eq ty
  have hinst : (s.builder.param ty).2.function.inst? s.builder.next =
      some (.param ty s.builder.function.params.length) := by
    rw [Function.inst?, hlonger.value_eq, if_pos rfl]
    rfl
  refine ⟨⟨hlonger.header_eq.trans h.header_eq, hcoherent,
    hlonger.current_eq.trans h.current_eq, hlonger.blocks_size.trans h.single, ?_,
    (hnil _).trans h.code_eq, h.loops_eq, h.notes_eq, h.lookup_eq, fun ht => ?_⟩, ⟨?_, fun _ _ => ?_⟩,
    fun held w hw => ⟨?_, fun ht _ => hextends.hasTy (hw.hasTy ht h.reach)⟩⟩
  · change (s.builder.param ty).2.head = (s.builder.param ty).2.function.params
    rw [hlonger.head_eq, hparams, h.head_eq]
  · refine (h.typed ht).head h.coherent hextends (congrArg Prod.snd hlonger.header_eq)
      hlonger.live_eq hnil fun v held pinned hv hge => ?_
    obtain rfl := eq_next hlonger.values_size hv hge
    cases hinst.symm.trans hv
  · change AtHand nothing _ (s.builder.param ty).1
    exact available_headLonger hlonger rfl rfl
  · change HasTy (s.builder.param ty).2.function (s.builder.param ty).1 ty
    rw [hnext]
    exact ⟨ty_of_inst hinst, hty⟩
  · change AvailableAt nothing (codeOf (s.builder.param ty).2) (s.builder.param ty).2.current w
    exact hextends.availableAt h.ready.isOpen.1 hw.atHand

/-- A parameter has a value of the type of its local. -/
lemma params_ends (params : List Local) (h : Opening K header s) :
    Ends K (params.mapM fun var => match K.ctx.env.ty (K.ctx.localType var) with
      | .void => pure none
      | ty => some <$> build fun builder => builder.param ty) s fun values s' =>
        Opening K header s' ∧
        (∀ pair ∈ params.zip values, ∀ v ∈ pair.2,
          Operand K (K.ctx.env.ty (K.ctx.localType pair.1)) nothing s' v) ∧
        ∀ held w, Operand K held nothing s w → Operand K held nothing s' w := by
  induction params generalizing s with
  | nil => exact Ends.pure ⟨h, by simp, fun _ _ hw => hw⟩
  | cons var params ih =>
    rw [List.mapM_cons]
    have hfirst : Ends K (match K.ctx.env.ty (K.ctx.localType var) with
        | .void => pure none
        | ty => some <$> build fun builder => builder.param ty) s fun value s' =>
          Opening K header s' ∧
          (∀ v ∈ value, Operand K (K.ctx.env.ty (K.ctx.localType var)) nothing s' v) ∧
          ∀ held w, Operand K held nothing s w → Operand K held nothing s' w := by
      split
      · exact Ends.pure ⟨h, by simp, fun _ _ hw => hw⟩
      · next hty =>
        refine Ends.map ((h.param_ends hty).mono ?_)
        rintro v s' ⟨hopening, hv, hkept⟩
        exact ⟨hopening, by simpa using hv, hkept⟩
    refine hfirst.bind ?_
    rintro value s1 ⟨hopening1, hvalue, hkept1⟩
    refine (ih hopening1).bind ?_
    rintro values s2 ⟨hopening2, hvalues, hkept2⟩
    refine Ends.pure ⟨hopening2, fun pair hpair => ?_, fun held w hw =>
      hkept2 held w (hkept1 held w hw)⟩
    rcases List.mem_cons.mp hpair with rfl | hpair
    · exact fun v hv => hkept2 _ v (hvalue v hv)
    · exact hvalues pair hpair

end Opening

lemma bindLocals_completes (pairs : List (Local × Option Value)) (h : Ready K A s)
    (hpairs : ∀ pair ∈ pairs, ∀ v ∈ pair.2,
      Operand K (K.ctx.env.ty (K.ctx.localType pair.1)) A s v)
    (hsettled : K.sound → ∀ pair ∈ pairs, (K.decls.changes pair.1 || K.decls.fixed pair.1) = true) :
    Completes K ⟨.pass, true⟩ A s (pairs.forM fun (var, value) => bindLocal K.ctx var value)
      fun _ _ _ => True := by
  induction pairs generalizing A s with
  | nil => exact Completes.may_bind (.pure h trivial)
  | cons pair pairs ih =>
    have hfirst := bindLocal_completes h (hpairs pair List.mem_cons_self)
      fun hs _ => hsettled hs pair List.mem_cons_self
    refine Completes.bind h hfirst fun _ A' s' hlow h' _ => ih h' (fun other hother v hv => ?_)
      fun hs other hother => hsettled hs other (List.mem_cons_of_mem _ hother)
    exact hlow.operand (hpairs other (List.mem_cons_of_mem _ hother) v hv)

lemma declareParams_ends (h : Opening K header s) (hsettled : K.sound → ∀ var ∈ K.ctx.body.params,
      (K.decls.changes var || K.decls.fixed var) = true) :
    Ends K (declareParams K.ctx) s fun _ s' => ∃ s1 A', Opening K header s1 ∧
      Lowers K nothing s1 A' s' (Course.way ⟨.pass, true⟩ s1.loops) ∧ Ready K A' s' := by
  refine (h.params_ends K.ctx.body.params).bind fun values s1 ⟨hopening, hvalues, _⟩ => ?_
  refine Ends.mono (bindLocals_completes _ hopening.ready hvalues fun hs pair hpair => ?_) ?_
  · exact hsettled hs pair.1 (List.of_mem_zip hpair).1
  · rintro _ s' ⟨A', hlow, hready, -⟩
    exact ⟨s1, A', hopening, hlow, hready⟩

/-! ### The end of a body -/

/-- The value of the last expression of a body can be returned. -/
lemma Gives.returned {block : Core.Block} {tail : Option Value}
    (htail : Gives K (K.ctx.env.ty (blockType block)) A s tail)
    (hsite : K.Keeps s.builder.isReachable (.ret (block.tail.map Core.Expr.ty))) :
    ∀ v ∈ tail, Returned K A s v := by
  intro v hv
  refine ⟨_, htail.operand v hv, fun ht hr hvalued => ?_⟩
  have hconsistent := hsite.consistent ht hr
  obtain ⟨-, hne⟩ := (htail.operand v hv).hasTy ht hr
  obtain ⟨_, _, _, last⟩ := block
  cases last with
  | none => exact absurd (K.faithful (.inr ht)).ty_unit hne
  | some last => exact congrArg _ (hconsistent hvalued)

/-- A block that control cannot get to is ended, too. -/
lemma finishBody_ends (h : Ready K A s) {tail : Option Value}
    (htail : ∀ v ∈ tail, Returned K A s v) :
    Ends K (finishBody K.ctx tail) s fun _ s' =>
      ∃ A', Staged K A s A' s' ∅ (Course.pass.way s.loops) := by
  refine Ends.bind (locate_completes h K.ctx.body.span K.ctx.body.node) ?_
  rintro _ s0 ⟨A0, hlow0, h0, -⟩
  refine Ends.bind (isReachable_completes h0) ?_
  rintro answer s1 ⟨A1, hasked, h1, -⟩
  have hlow1 := hlow0.trans_pass h hasked
  have htail1 : ∀ v ∈ tail, Returned K A1 s1 v := by
    intro v hv
    obtain ⟨ty, hv, hty⟩ := htail v hv
    exact ⟨ty, hlow1.operand hv, fun ht hr => hty ht (hlow1.reach hr)⟩
  have hafter {s' : LowerState} (hstaged : ∃ A', Staged K A1 s1 A' s' ∅ (Course.pass.way s1.loops)) :
      ∃ A', Staged K A s A' s' ∅ (Course.pass.way s.loops) := by
    obtain ⟨A', hstaged⟩ := hstaged
    exact ⟨A', (hlow1.toStaged.trans_pass h.coherent hstaged).mono (by simp)⟩
  refine Ends.mono ?_ fun _ _ => hafter
  cases answer with
  | false => exact Ends.mono (sealDeadBlock_ends h1) fun _ _ hsealed => ⟨A1, hsealed⟩
  | true =>
    refine Ends.get_bind ?_
    split
    · next hvoid =>
      exact (emitRet_ends h1 (by simp) fun ht => by simp [← (h1.typed ht).ret_eq, hvoid]).mono
        fun _ s' hended => ⟨A1, hended⟩
    · next hret =>
      exact (emitRet_ends h1 htail1 fun ht => by simpa [← (h1.typed ht).ret_eq] using hret).mono
        fun _ s' hended => ⟨A1, hended⟩
    · refine Ends.bind (report_completes h1 _ _ _) ?_
      rintro _ s2 ⟨A2, hlow2, h2, -⟩
      refine (emitReturn_ends h2 (by simp)).mono ?_
      rintro _ s3 ⟨A3, hended⟩
      exact ⟨A3, (hlow2.toStaged.trans_pass h1.coherent hended).mono (by simp)⟩

/-- The code of a body before its end is ready for it. -/
lemma lowerTop_ends (h : Opening K header s)
    (hobeys : K.Known → BodyObeys K.rules K.ctx.env.types K.decls K.ctx.body) :
    Ends K (do enterScope; declareParams K.ctx; lowerBlock K.ctx K.ctx.body.block) s
      fun tail s' => ∃ s0 A' w, Opening K header s0 ∧ Lowers K nothing s0 A' s' w ∧ Ready K A' s' ∧
        ∀ v ∈ tail, Returned K A' s' v := by
  refine Ends.bind (Q := fun _ s' => s' = inScope s) rfl ?_
  rintro _ _ rfl
  refine (declareParams_ends h.enterScope fun hs var hvar =>
    (hobeys (.inl hs)).params var hvar hs).bind ?_
  rintro _ s1 ⟨s0, A1, hopening, hlow1, h1⟩
  have hreach : s1.builder.isReachable = true := by
    rw [hlow1.reach_eq, hopening.reach]
    rfl
  refine Ends.mono (lowerBlock_lowerable K.ctx.body.block (fun hk => (hobeys hk).block) h1 hreach) ?_
  rintro tail s2 ⟨A2, hlow2, h2, htail⟩
  refine ⟨s0, A2, _, hopening, hlow1.trans hopening.ready hlow2, h2, htail.returned fun hk => ?_⟩
  rw [hlow2.reach_eq, hreach]
  exact (hobeys hk).tail

/-- Nothing is left open at the end of a body. -/
lemma Opening.finished {s0 : LowerState} {w : Way} (h : Opening K header s0)
    (hstaged : Staged K nothing s0 A s ∅ w) : Finished A s.builder := by
  refine ⟨hstaged.toCoherent, fun t ht => ?_⟩
  by_contra hopen
  rcases hstaged.opened t ⟨ht, hopen⟩ with hmem | ⟨hlt, hne⟩
  · simp at hmem
  · rw [h.single] at hlt
    rw [h.current_eq] at hne
    exact hne (Block.ext (Nat.lt_one_iff.mp hlt))

lemma lowerWhole_ends (h : Opening K header s)
    (hobeys : K.Known → BodyObeys K.rules K.ctx.env.types K.decls K.ctx.body) :
    Ends K (lowerWhole K.ctx) s fun _ s' => ∃ A', Finished A' s'.builder ∧
      s'.builder.header = header ∧ (K.typed → Typed K.ctx s'.builder) := by
  have hsplit : lowerWhole K.ctx = (do
      let tail ← (do enterScope; declareParams K.ctx; lowerBlock K.ctx K.ctx.body.block)
      finishBody K.ctx tail
      leaveScope) := by
    simp only [lowerWhole, bind_assoc]
  rw [hsplit]
  refine (lowerTop_ends h hobeys).bind ?_
  rintro tail s1 ⟨s0, A1, w, hopening, hlow, h1, htail⟩
  refine (finishBody_ends h1 htail).bind ?_
  rintro _ s2 ⟨A2, hended⟩
  have hwhole := hlow.toStaged.trans_pass hopening.coherent hended
  have hfinished : Finished A2 s2.builder := hopening.finished (hwhole.mono (by simp))
  exact ⟨A2, hfinished, hwhole.header_eq.trans hopening.header_eq, hended.typed⟩

/-! ### Bodies -/

/-- Nothing is known of a body. -/
def Setting.unknown (ctx : Context) : Setting where
  ctx := ctx
  decls := ⟨ctx.body.locals, fun _ => false⟩
  strict := false
  sound := False
  typed := False
  decls_eq := rfl
  faithful := by simp

lemma Setting.not_known (ctx : Context) : ¬ (unknown ctx).Known := by
  simp [Known, unknown]

/-- An error that the body has caused. -/
def Benign : LowerError → Prop
  | .internal _ => True
  | _ => False

/-- What lowering a body gives, by what is known of the body. -/
lemma lowerBody_ends (hobeys : K.Known → BodyObeys K.rules K.ctx.env.types K.decls K.ctx.body) :
    match (lowerBody K.ctx.env K.ctx.body).function with
    | .ok f => ∃ A b, Finished A b ∧ b.header = (K.ctx.body.name, K.ctx.env.ty K.ctx.body.ret) ∧
      f = b.function ∧ (K.typed → Typed K.ctx b)
    | .error error => K.Allows error := by
  have h := lowerWhole_ends (.start K K.ctx.body.name K.ctx.body.span K.ctx.body.node) hobeys
  unfold Ends at h
  unfold lowerBody
  dsimp only
  rw [EStateM.run]
  split at h
  · next heq =>
    obtain ⟨A, hfinished, hheader, htyped⟩ := h
    rw [heq]
    exact ⟨A, _, hfinished, hheader, rfl, htyped⟩
  · next heq =>
    rw [heq]
    exact h

/-- A body is lowered to finished code, or it has an error that it has caused itself. -/
theorem lowerBody_finished (env : Environment) (body : Body) :
    match (lowerBody env body).function with
    | .ok f => ∃ A b, Finished A b ∧ b.header = (body.name, env.ty body.ret) ∧ f = b.function
    | .error error => Benign error := by
  have h := lowerBody_ends fun hk => absurd hk (Setting.not_known ⟨env, body⟩)
  change match (lowerBody env body).function with
    | .ok f => _
    | .error error => _ at h
  split at h
  · obtain ⟨A, b, hfinished, hheader, hf, -⟩ := h
    exact ⟨A, b, hfinished, hheader, hf⟩
  · next error _ =>
    cases error with
    | internal => trivial
    | _ => exact h

end SsaLowering.Proofs
