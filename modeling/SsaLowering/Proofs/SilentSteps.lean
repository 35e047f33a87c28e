import SsaLowering.Lowering.Body
import SsaLowering.Proofs.LoweringSteps

/-!
# Silent steps

Most steps of lowering neither declare nor use a local and neither open nor leave a scope: of what can
be seen of the locals of a body they change nothing.
-/

namespace SsaLowering.Proofs

open Ir Lowering
open SsaLowering.Core (Local)

/-! ### Successful runs -/

section Runs

variable {α β : Type} {x : LowerM α} {f : α → LowerM β} {s s' s'' : LowerState} {a : α} {b : β}

lemma bind_ok_iff : (x >>= f) s = .ok b s'' ↔ ∃ a s', x s = .ok a s' ∧ f a s' = .ok b s'' := by
  simp only [Bind.bind, EStateM.bind]
  cases x s with
  | ok a s' =>
    simp only [EStateM.Result.ok.injEq]
    constructor
    · exact fun h => ⟨a, s', ⟨rfl, rfl⟩, h⟩
    · rintro ⟨_, _, ⟨rfl, rfl⟩, h⟩
      exact h
  | error e s' => simp

lemma get_bind_run {g : LowerState → LowerM α} : (get >>= g) s = g s s :=
  rfl

lemma pure_ok_iff {a' : α} : (pure a : LowerM α) s = .ok a' s' ↔ a' = a ∧ s' = s := by
  simp only [Pure.pure, EStateM.pure, EStateM.Result.ok.injEq]
  tauto

lemma map_ok_iff {g : α → β} : (g <$> x) s = .ok b s' ↔ ∃ a, x s = .ok a s' ∧ b = g a := by
  simp only [Functor.map, EStateM.map]
  cases x s with
  | ok a s' =>
    simp only [EStateM.Result.ok.injEq]
    constructor
    · rintro ⟨rfl, rfl⟩
      exact ⟨a, ⟨rfl, rfl⟩, rfl⟩
    · rintro ⟨a', ⟨rfl, rfl⟩, rfl⟩
      exact ⟨rfl, rfl⟩
  | error e s' => simp

lemma discard_ok_iff {u : Unit} : Functor.discard x s = .ok u s' ↔ ∃ a, x s = .ok a s' := by
  exact map_ok_iff.trans (by simp)

lemma tryBuild_ok_iff {step : Builder → Except Fault (α × Builder)} :
    tryBuild step s = .ok a s' ↔
      ∃ b', step s.builder = .ok (a, b') ∧ s' = { s with builder := b' } := by
  simp only [tryBuild, Bind.bind, EStateM.bind, get, getThe, MonadStateOf.get, EStateM.get]
  cases step s.builder with
  | error fault => simp [throw, throwThe, MonadExceptOf.throw, EStateM.throw]
  | ok result =>
    change EStateM.Result.ok result.1 { s with builder := result.2 } = _ ↔ _
    simp only [EStateM.Result.ok.injEq, Except.ok.injEq, Prod.ext_iff]
    constructor
    · rintro ⟨rfl, rfl⟩
      exact ⟨_, ⟨rfl, rfl⟩, rfl⟩
    · rintro ⟨b', ⟨rfl, rfl⟩, rfl⟩
      exact ⟨rfl, rfl⟩

end Runs

open List

/-! ### What is seen -/

/-- Reports that name a local; those that name a global begin otherwise. -/
def namesLocal (report : Report) : Bool :=
  report.kind == .unboundIdentifier && report.message.toList.head? == some '`'

/-- What can be seen of the locals of a body while it is lowered. -/
structure View where
  scopes : ScopeStack
  notes : List Note
  reports : List Report

/-- Notes on locals; the others are answers about the cursor. -/
def onLocal : Note → Bool
  | .asked _ _ => false
  | _ => true

def viewOf (s : LowerState) : View where
  scopes := s.scopes
  notes := s.notes.filter onLocal
  reports := s.reports.filter fun report => namesLocal report || report.kind == .missingReturn

lemma filter_namesLocal (s : LowerState) :
    s.reports.filter namesLocal = (viewOf s).reports.filter namesLocal := by
  simp only [viewOf, filter_filter, Bool.and_or_distrib_left, Bool.and_self]
  congr 1
  funext report
  cases namesLocal report <;> simp

/-! ### Steps that are not seen -/

/-- The loops around the cursor are the same, and whatever was noted still is. -/
def Continues (s s' : LowerState) : Prop :=
  s'.loops = s.loops ∧ s.notes <:+ s'.notes

lemma Continues.refl (s : LowerState) : Continues s s :=
  ⟨rfl, suffix_rfl⟩

lemma Continues.trans {s s' s'' : LowerState} (h : Continues s s') (h' : Continues s' s'') :
    Continues s s'' :=
  ⟨h'.1.trans h.1, h.2.trans h'.2⟩

/-- Nothing has happened that is seen along an outline. -/
def Unseen (s s' : LowerState) : Prop :=
  viewOf s' = viewOf s ∧ Continues s s'

/-- Steps of which nothing is seen. -/
def Silent {α : Type} (x : LowerM α) : Prop :=
  ∀ ⦃s a s'⦄, x s = .ok a s' → Unseen s s'

namespace Silent

variable {α β : Type} {x : LowerM α} {f : α → LowerM β}

lemma pure (a : α) : Silent (Pure.pure a) := by
  intro s a' s' h
  obtain ⟨-, rfl⟩ := pure_ok_iff.mp h
  exact ⟨rfl, .refl _⟩

lemma bind (hx : Silent x) (hf : ∀ a, Silent (f a)) : Silent (x >>= f) := by
  intro s b s'' h
  obtain ⟨a, s', hx', hf'⟩ := bind_ok_iff.mp h
  obtain ⟨hview, hon⟩ := hx hx'
  obtain ⟨hview', hon'⟩ := hf a hf'
  exact ⟨hview'.trans hview, hon.trans hon'⟩

lemma map {g : α → β} (hx : Silent x) : Silent (g <$> x) := by
  intro s b s' h
  obtain ⟨a, ha, -⟩ := map_ok_iff.mp h
  exact hx ha

lemma mapM {γ : Type} {g : γ → LowerM α} (hg : ∀ c, Silent (g c)) (cs : List γ) :
    Silent (cs.mapM g) := by
  induction cs with
  | nil => exact .pure _
  | cons c cs ih =>
    rw [List.mapM_cons]
    exact (hg c).bind fun _ => ih.bind fun _ => .pure _

lemma get_bind {f : LowerState → LowerM α} (hf : ∀ s, Silent (f s)) : Silent (get >>= f) :=
  fun s _ _ h => hf s h

lemma inconsistent (span : Span) (cause : Inconsistency) :
    Silent (Lowering.inconsistent span cause : LowerM α) := by
  intro s a s' h
  cases h

lemma isReachable : Silent Lowering.isReachable := by
  rintro s _ _ ⟨⟩
  exact ⟨rfl, rfl, suffix_cons ..⟩

lemma build (step : Builder → α × Builder) : Silent (Lowering.build step) := by
  rintro s _ _ ⟨⟩
  exact ⟨rfl, .refl s⟩

lemma tryBuild (step : Builder → Except Fault (α × Builder)) : Silent (Lowering.tryBuild step) := by
  intro s a s' h
  obtain ⟨b', -, rfl⟩ := tryBuild_ok_iff.mp h
  exact ⟨rfl, .refl s⟩

lemma insert (inst : Inst) : Silent (Lowering.insert inst) :=
  tryBuild _

lemma emit (inst : Inst) : Silent (Lowering.emit inst) := by
  intro s u s' h
  obtain ⟨v, hv⟩ := discard_ok_iff.mp h
  exact insert inst hv

lemma locate (span : Span) (node : Nat) : Silent (Lowering.locate span node) := by
  rintro s _ _ ⟨⟩
  exact ⟨rfl, .refl s⟩

lemma report (span : Span) {kind : ReportKind} {message : String}
    (hlocal : namesLocal ⟨kind, span, message⟩ = false) (hkind : kind ≠ .missingReturn) :
    Silent (Lowering.report kind span message) := by
  rintro s _ _ ⟨⟩
  refine ⟨?_, .refl s⟩
  simp [viewOf, hlocal, hkind]

end Silent

section SilentSteps

variable (ctx : Context) (span : Span) (node : Nat)

lemma undefOf_silent (ty : Nat) : Silent (undefOf ctx ty) := by
  unfold undefOf
  split
  · exact .pure _
  · exact (Silent.insert _).map

lemma chooseBinding_silent (var : Local) (value : Option Value) :
    Silent (chooseBinding ctx var value) := by
  unfold chooseBinding
  dsimp only
  split
  · exact .pure _
  · exact (Silent.build _).bind fun _ => .pure _
  · split
    · exact (Silent.build _).bind fun _ => (Silent.emit _).bind fun _ => .pure _
    · exact .pure _

lemma lowerLiteral_silent (value : Source.Literal) : Silent (lowerLiteral value) := by
  cases value with
  | unit => exact .pure _
  | _ => exact (Silent.insert _).map

lemma storeField_silent (agg : Nat) (record : Value) (index : Nat) (value : Value) :
    Silent (storeField agg record index value) :=
  (Silent.insert _).bind fun _ => .emit _

lemma assignField_silent (ty : Nat) (record : Value) (index : Nat) (value : Option Value) :
    Silent (assignField ctx span ty record index value) := by
  unfold assignField
  split
  · exact .inconsistent _ _
  · exact .pure _
  · exact storeField_silent _ _ _ _

lemma readField_silent (ty agg : Nat) (record : Value) (index : Nat) :
    Silent (readField ctx ty agg record index) := by
  unfold readField
  split
  · exact .pure _
  · exact (Silent.insert _).bind fun _ => (Silent.insert _).map

lemma asOperand_silent (ty : Nat) (lowered : Option Value) :
    Silent (asOperand ctx span ty lowered) := by
  cases lowered with
  | some value => exact .pure _
  | none =>
    refine Silent.isReachable.bind fun answer => ?_
    split
    · exact .inconsistent _ _
    · exact .insert _

lemma layoutOf_silent (ty : Nat) : Silent (layoutOf ctx span ty) := by
  unfold layoutOf
  split
  · exact .pure _
  · exact .inconsistent _ _

lemma lowerBinary_silent (op : Core.BinaryOp) (ty : Nat) (lhs rhs : Value) :
    Silent (lowerBinary ctx span op ty lhs rhs) := by
  unfold lowerBinary
  split
  · exact .inconsistent _ _
  · refine (Silent.insert _).bind fun _ => ?_
    split
    · exact .insert _
    · exact .pure _

lemma lowerUnary_silent (op : Source.UnaryOp) (ty : Nat) (operand : Value) :
    Silent (lowerUnary ctx span op ty operand) := by
  unfold lowerUnary
  split
  · exact .inconsistent _ _
  · exact .insert _

lemma convert_silent (value : Value) (source target : Nat) :
    Silent (convert ctx span value source target) := by
  unfold convert
  split
  · exact .pure _
  · dsimp only
    split
    · next conversion _ =>
      cases conversion with
      | identity => exact .pure _
      | intToFloat | floatToInt | boolToInt => exact .insert _
      | intToBool | floatToBool | boolToFloat =>
        exact (Silent.insert _).bind fun _ => .insert _
    · exact .inconsistent _ _

lemma subjectValue_silent (subject : Option Value) : Silent (subjectValue span subject) := by
  cases subject with
  | some value => exact .pure _
  | none => exact .inconsistent _ _

lemma makeResult_silent (ty : Nat) (isErr : Bool) (payload : Option Value) :
    Silent (makeResult ctx span ty isErr payload) := by
  unfold makeResult
  split
  · refine (layoutOf_silent ctx span ty).bind fun agg => (Silent.insert _).bind fun tag => ?_
    have hrest (filled : Option Value) (empty : Nat) : Silent (do
        let other ← undefOf ctx empty
        insert (.makeAgg agg (tag :: (if isErr then (other, filled) else (filled, other)).1.toList ++
          (if isErr then (other, filled) else (filled, other)).2.toList))) :=
      (undefOf_silent ctx empty).bind fun _ => .insert _
    cases payload with
    | some value => exact (Silent.pure _).bind fun filled => hrest filled _
    | none => exact (undefOf_silent ctx _).bind fun filled => hrest filled _
  · exact .inconsistent _ _

lemma propagatedError_silent (result : Value) (source target : Nat) :
    Silent (propagatedError ctx span result source target) := by
  unfold propagatedError
  split
  · exact .pure _
  · exact .inconsistent _ _
  · exact (Silent.insert _).bind fun _ => (convert_silent ctx span _ _ _).map

lemma emitReturn_silent (value : Option Value) : Silent (emitReturn value) := by
  refine .get_bind fun s => ?_
  split
  · exact .emit _
  · exact .emit _
  · exact (Silent.insert _).bind fun _ => .emit _

lemma sealDeadBlock_silent : Silent sealDeadBlock := by
  refine .get_bind fun s => ?_
  split
  · exact .emit _
  · exact .pure _

lemma noGlobalMessage_head? (name : String) : (noGlobalMessage name).toList.head? = some 'n' := by
  have hfirst : "no global named `".toList = 'n' :: "o global named `".toList := by decide +kernel
  have hlist (l m : List Char) : (("no global named `".toList ++ l) ++ m).head? = some 'n' := by
    rw [hfirst]
    simp only [cons_append, head?_cons]
  have happend : (noGlobalMessage name).toList =
      ("no global named `".toList ++ name.toList) ++ "`".toList := by
    unfold noGlobalMessage
    rw [String.toList_append, String.toList_append]
  exact happend ▸ hlist _ _

lemma noGlobal_silent (name : String) :
    Silent (report .unboundIdentifier span (noGlobalMessage name)) := by
  refine Silent.report span ?_ (by decide)
  unfold namesLocal
  rw [noGlobalMessage_head?]
  rfl

lemma readGlobal_silent (ty : Nat) (name : String) : Silent (readGlobal ctx span ty name) := by
  unfold readGlobal
  split
  · split
    · exact .pure _
    · exact (Silent.insert _).bind fun _ => (Silent.insert _).map
  · exact (noGlobal_silent span name).bind fun _ => undefOf_silent ctx ty

lemma assignGlobal_silent (name : String) (value : Option Value) :
    Silent (assignGlobal ctx span name value) := by
  unfold assignGlobal
  split
  · exact noGlobal_silent span name
  · exact .pure _
  · exact (Silent.insert _).bind fun _ => .emit _

lemma enterDeadBlock_silent : Silent enterDeadBlock :=
  (Silent.build _).bind fun _ => Silent.build _

lemma jump_silent (next : Bool) : Silent (jump span next) := by
  refine .get_bind fun s => ?_
  split
  · exact (Silent.emit _).bind fun _ => enterDeadBlock_silent
  · have hend : Silent (do emit .unreachable; enterDeadBlock) :=
      (Silent.emit _).bind fun _ => enterDeadBlock_silent
    split
    · exact (Silent.report span rfl (by decide)).bind fun _ => hend
    · exact (Silent.report span rfl (by decide)).bind fun _ => hend

lemma openLoop_silent (hasCond hasStep : Bool) : Silent (openLoop hasCond hasStep) := by
  have hblock (name : String) : Silent (createBlock name) := Silent.build _
  have hmaybe {wanted : Bool} {name : String} {k : Option Ir.Block → LowerM LoopBlocks}
      (hk : ∀ made, Silent (k made)) :
      Silent (if wanted then some <$> createBlock name >>= k else pure none >>= k) := by
    split
    · exact (hblock name).map.bind hk
    · exact (Silent.pure _).bind hk
  exact hmaybe fun cond => (hblock _).bind fun body => hmaybe fun step => (hblock _).bind fun exit =>
    (Silent.emit _).bind fun _ => .pure _

lemma finishArm_silent (value : Option Value) : Silent (finishArm value) := by
  refine Silent.isReachable.bind fun answer => ?_
  split
  · exact .get_bind fun s => .pure _
  · exact sealDeadBlock_silent.bind fun _ => .pure _

lemma joinArm_silent (ty : Ty) (target : Ir.Block) (arm : ArmEnd) :
    Silent (joinArm span node ty target arm) := by
  have hrest {y : LowerM (Option Value)} (hy : Silent y) :
      Silent (do let value ← y; emit (.br target); return value) :=
    hy.bind fun _ => (Silent.emit _).bind fun _ => .pure _
  refine (Silent.build _).bind fun _ => (Silent.locate span node).bind fun _ => ?_
  split
  · exact hrest (.pure _)
  · exact hrest (.pure _)
  · exact hrest (Silent.insert _).map

lemma mergeArms_silent (ty : Nat) (name : String) (arms : List ArmEnd) :
    Silent (mergeArms ctx span node ty name arms) := by
  unfold mergeArms
  split
  · exact enterDeadBlock_silent.bind fun _ => .pure _
  · exact (Silent.build _).bind fun _ => .pure _
  · refine (Silent.build _).bind fun target =>
      (Silent.mapM (joinArm_silent span node _ target) _).bind fun values =>
        (Silent.build _).bind fun _ => ?_
    split
    · exact .pure _
    · exact (Silent.tryBuild _).map

lemma branchOnTest_silent (test : Option Value) : Silent (branchOnTest test) := by
  unfold branchOnTest
  split
  · exact .pure _
  · exact (Silent.build _).bind fun _ => (Silent.build _).bind fun _ => (Silent.emit _).bind fun _ =>
      (Silent.build _).bind fun _ => .pure _

lemma propagate_silent (ty : Nat) (result : Value) : Silent (propagate ctx span ty result) := by
  unfold propagate
  split
  · split
    · exact .inconsistent _ _
    · refine (Silent.insert _).bind fun _ => (Silent.build _).bind fun _ =>
        (Silent.build _).bind fun _ => (Silent.emit _).bind fun _ => (Silent.build _).bind fun _ =>
        (propagatedError_silent ctx span result _ _).bind fun _ => (Silent.insert _).bind fun _ =>
        (undefOf_silent ctx _).bind fun _ => (Silent.insert _).bind fun _ =>
        (Silent.emit _).bind fun _ => (Silent.build _).bind fun _ => ?_
      split
      · exact .pure _
      · exact (Silent.insert _).map
  · exact .inconsistent _ _
  · exact .inconsistent _ _

lemma lowerCall_silent (ty : Nat) (callee : String) (args : List Value) :
    Silent (lowerCall ctx ty callee args) := by
  refine (Silent.insert _).bind fun result => ?_
  split
  · exact (Silent.emit _).bind fun _ => enterDeadBlock_silent.bind fun _ => .pure _
  · exact .pure _

end SilentSteps

end SsaLowering.Proofs
