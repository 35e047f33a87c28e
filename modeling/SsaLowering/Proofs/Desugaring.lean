import SsaLowering.Proofs.Evaluation

/-!
# Desugaring preserves meaning

A binding of the source and the local that stands for it hold the same words at all times, memory
and trace are the same, and the locals that desugaring adds are written by nothing but the
statements that it added for them. So the core form of a body comes to what the body comes to.
-/

namespace SsaLowering.Proofs

open Source (TypeTable LoadedBlock LoadedStmt LoadedExpr)
open SsaLowering.Core

variable {N : Naming} {var : Local} {binding : Nat} {name : String}

/-! ### Names -/

/-- The locals that stand for the bindings of a body, and the locals that a piece of it must not
write. -/
structure Naming where
  bindings : List (Nat × Local)
  kept : Local → Prop
  matched : ∀ p ∈ bindings, ∀ q ∈ bindings, p.1 = q.1 ↔ p.2 = q.2
  apart : ∀ p ∈ bindings, ¬ kept p.2

/-- The same names, with one local more that must not be written. -/
def Naming.keep (N : Naming) (var : Local) (h : ∀ p ∈ N.bindings, p.2 ≠ var) : Naming where
  bindings := N.bindings
  kept v := N.kept v ∨ v = var
  matched := N.matched
  apart p hp hk := hk.elim (N.apart p hp) (h p hp)

lemma Naming.keep_kept (h : ∀ p ∈ N.bindings, p.2 ≠ var) {ω : Type} {held : List (Local × ω)}
    (hheld : ∀ p ∈ held, N.kept p.1) (value : ω) :
    ∀ p ∈ (var, value) :: held, (N.keep var h).kept p.1 := by
  intro p hp
  rcases List.mem_cons.1 hp with rfl | hp
  · exact .inr rfl
  · exact .inl (hheld p hp)

section Agreement

variable {A : Algebra} {α β : Type}

/-- Evaluation of the source and of its core form stand at the same point. Some locals of the core
form are known to hold certain words. -/
structure Agree (N : Naming) (held : List (Local × Option A.Word)) (source : EvalState A Nat)
    (core : EvalState A Local) : Prop where
  memory : core.memory = source.memory
  trace : core.trace = source.trace
  bound : ∀ p ∈ N.bindings, core.vars p.2 = source.vars p.1
  held : ∀ p ∈ held, core.vars p.1 = p.2

/-- Two evaluations end in the same way, in states that agree. -/
inductive AgreeEnd (N : Naming) (held : List (Local × Option A.Word)) :
    EStateM.Result (Exit A.Word) (EvalState A Nat) α →
      EStateM.Result (Exit A.Word) (EvalState A Local) α → Prop
  | ok {source core} (value : α) (h : Agree N held source core) :
    AgreeEnd N held (.ok value source) (.ok value core)
  | error {source core} (exit : Exit A.Word) (h : Agree N held source core) :
    AgreeEnd N held (.error exit source) (.error exit core)

/-- Evaluation of a core form follows evaluation of the source while some locals hold certain
words. -/
def FollowsAt (N : Naming) (held : List (Local × Option A.Word)) (core : Eval A Local α)
    (source : Eval A Nat α) : Prop :=
  ∀ s c, Agree N held s c → AgreeEnd N held (source s) (core c)

/-- Evaluation of a core form follows evaluation of the source and writes no local that must not be
written. -/
def Follows (N : Naming) (core : Eval A Local α) (source : Eval A Nat α) : Prop :=
  ∀ held, (∀ p ∈ held, N.kept p.1) → FollowsAt N held core source

namespace FollowsAt

variable {held : List (Local × Option A.Word)}

lemma pure (value : α) : FollowsAt N held (Pure.pure value : Eval A Local α) (Pure.pure value) :=
  fun _ _ h => .ok value h

lemma throw (exit : Exit A.Word) :
    FollowsAt N held (MonadExcept.throw exit : Eval A Local α) (MonadExcept.throw exit) :=
  fun _ _ h => .error exit h

lemma bind {m : Eval A Local α} {m' : Eval A Nat α} {f : α → Eval A Local β}
    {f' : α → Eval A Nat β} (hm : FollowsAt N held m m')
    (hf : ∀ a, FollowsAt N held (f a) (f' a)) : FollowsAt N held (m >>= f) (m' >>= f') := by
  intro s c h
  have hend := hm s c h
  simp only [Bind.bind, EStateM.bind]
  generalize m' s = last' at hend ⊢
  generalize m c = last at hend ⊢
  cases hend with
  | ok value h => exact hf value _ _ h
  | error exit h => exact .error exit h

lemma discard {m : Eval A Local α} {m' : Eval A Nat α} (hm : FollowsAt N held m m') :
    FollowsAt N held (Functor.discard m) (Functor.discard m') :=
  hm.bind fun _ => .pure ()

lemma act (action : Action A.Event A.Memory α) :
    FollowsAt N held (Eval.act action) (Eval.act action) := by
  intro s c h
  simp only [Eval.act, h.memory]
  split
  · exact .ok _ ⟨rfl, by simp only [h.trace], h.bound, h.held⟩
  · exact .error _ ⟨rfl, by simp only [h.trace], h.bound, h.held⟩

lemma need (value : Option A.Word) :
    FollowsAt N held (Eval.need value : Eval A Local A.Word) (Eval.need value) := by
  cases value with
  | none => exact .throw _
  | some word => exact .pure word

lemma forM (value : Option A.Word) {f : A.Word → Eval A Local Unit} {f' : A.Word → Eval A Nat Unit}
    (hf : ∀ word, FollowsAt N held (f word) (f' word)) :
    FollowsAt N held (value.forM f) (value.forM f') := by
  cases value with
  | none => exact .pure ()
  | some word => exact hf word

lemma read (h : (binding, var) ∈ N.bindings) :
    FollowsAt N held (Eval.read var : Eval A Local _) (Eval.read binding) := by
  intro s c hagree
  have heq : c.vars var = s.vars binding := hagree.bound _ h
  change AgreeEnd N held (.ok (s.vars binding) s) (.ok (c.vars var) c)
  rw [heq]
  exact .ok _ hagree

lemma update (h : (binding, var) ∈ N.bindings) (hheld : ∀ p ∈ held, N.kept p.1)
    (change : Option A.Word → Option A.Word) :
    FollowsAt N held
      (modify fun st => { st with vars := Function.update st.vars var (change (st.vars var)) })
      (modify fun st =>
        { st with vars := Function.update st.vars binding (change (st.vars binding)) }) := by
  intro s c hagree
  have heq : c.vars var = s.vars binding := hagree.bound _ h
  refine .ok () ⟨hagree.memory, hagree.trace, fun p hp => ?_, fun p hp => ?_⟩
  · by_cases hvar : p.2 = var
    · have hbinding : p.1 = binding := (N.matched p hp _ h).2 hvar
      simp only [hvar, hbinding, Function.update_self, heq]
    · have hbinding : p.1 ≠ binding := fun hb => hvar ((N.matched p hp _ h).1 hb)
      simp only [Function.update_of_ne hvar, Function.update_of_ne hbinding]
      exact hagree.bound p hp
  · have hne : p.1 ≠ var := fun hv => N.apart _ h (hv ▸ hheld p hp)
    simp only [Function.update_of_ne hne]
    exact hagree.held p hp

lemma write (h : (binding, var) ∈ N.bindings) (hheld : ∀ p ∈ held, N.kept p.1)
    (value : Option A.Word) : FollowsAt N held (Eval.write var value) (Eval.write binding value) :=
  update h hheld fun _ => value

lemma read_held {value : Option A.Word} (h : (var, value) ∈ held)
    {f : Option A.Word → Eval A Local α} {f' : Eval A Nat α} (hf : FollowsAt N held (f value) f') :
    FollowsAt N held (Eval.read var >>= f) f' := by
  intro s c hagree
  have heq : c.vars var = value := hagree.held _ h
  change AgreeEnd N held (f' s) (f (c.vars var) c)
  rw [heq]
  exact hf s c hagree

/-- Moving a word into a local that stands for no binding, where what comes next does not write
it. -/
lemma hold (hvar : ∀ p ∈ N.bindings, p.2 ≠ var) (hfree : ¬ N.kept var)
    (hheld : ∀ p ∈ held, N.kept p.1) (value : Option A.Word) {f : Eval A Local α}
    {f' : Eval A Nat α} (hf : FollowsAt (N.keep var hvar) ((var, value) :: held) f f') :
    FollowsAt N held (Eval.write var value >>= fun _ => f) f' := by
  intro s c hagree
  have hstart : Agree (N.keep var hvar) ((var, value) :: held) s
      { c with vars := Function.update c.vars var value } := by
    refine ⟨hagree.memory, hagree.trace, fun p hp => ?_, fun p hp => ?_⟩
    · exact (Function.update_of_ne (hvar p hp) ..).trans (hagree.bound p hp)
    · rcases List.mem_cons.1 hp with rfl | hp
      · exact Function.update_self ..
      · have hne : p.1 ≠ var := fun hv => hfree (hv ▸ hheld p hp)
        exact (Function.update_of_ne hne ..).trans (hagree.held p hp)
  have hend := hf _ _ hstart
  change AgreeEnd N held (f' s) (f { c with vars := Function.update c.vars var value })
  generalize f' s = last' at hend ⊢
  generalize f { c with vars := Function.update c.vars var value } = last at hend ⊢
  cases hend with
  | ok value h =>
    exact .ok value ⟨h.memory, h.trace, h.bound, fun p hp => h.held p (List.mem_cons_of_mem _ hp)⟩
  | error exit h =>
    exact .error exit ⟨h.memory, h.trace, h.bound, fun p hp => h.held p (List.mem_cons_of_mem _ hp)⟩

lemma turn {body : Eval A Local Unit} {body' : Eval A Nat Unit}
    (h : FollowsAt N held body body') : FollowsAt N held (Eval.turn body) (Eval.turn body') := by
  intro s c hagree
  have hend := h s c hagree
  simp only [Eval.turn]
  generalize body' s = last' at hend ⊢
  generalize body c = last at hend ⊢
  cases hend with
  | ok _ h => exact .ok true h
  | error exit h =>
    cases exit with
    | continueLoop => exact .ok true h
    | breakLoop => exact .ok false h
    | ret value => exact .error _ h
    | stop outcome => exact .error _ h
    | timeout => exact .error _ h

lemma ite {m1 m2 : Eval A Local α} {m1' m2' : Eval A Nat α} (test : Prop) [Decidable test]
    (h1 : FollowsAt N held m1 m1') (h2 : FollowsAt N held m2 m2') :
    FollowsAt N held (if test then m1 else m2) (if test then m1' else m2') := by
  split
  · exact h1
  · exact h2

lemma iterate {cond : Eval A Local Bool} {cond' : Eval A Nat Bool} {body step : Eval A Local Unit}
    {body' step' : Eval A Nat Unit} (hcond : FollowsAt N held cond cond')
    (hbody : FollowsAt N held body body') (hstep : FollowsAt N held step step') (turns : Nat) :
    FollowsAt N held (Eval.iterate cond body step turns) (Eval.iterate cond' body' step' turns) := by
  induction turns with
  | zero => exact .throw _
  | succ turns ih =>
    refine hcond.bind fun goes => .ite _ ?_ (.pure ())
    exact hbody.turn.bind fun goes => .ite _ (hstep.bind fun _ => ih) (.pure ())

end FollowsAt
end Agreement

/-! ### Steps of desugaring -/

/-- Bindings and locals are matched one to one, and the locals have been declared. -/
structure LocalsOk (locals : Locals) : Prop where
  matched : ∀ p ∈ locals.bindings, ∀ q ∈ locals.bindings, p.1 = q.1 ↔ p.2 = q.2
  declared : ∀ p ∈ locals.bindings, p.2.id < locals.decls.size

/-- Locals are only added; bindings stay with theirs. -/
structure LocalsGrow (before after : Locals) : Prop where
  size_le : before.decls.size ≤ after.decls.size
  kept : ∀ p ∈ before.bindings, p ∈ after.bindings
  added : ∀ p ∈ after.bindings, p ∈ before.bindings ∨ before.decls.size ≤ p.2.id

lemma LocalsGrow.refl (locals : Locals) : LocalsGrow locals locals :=
  ⟨le_rfl, fun _ h => h, fun _ h => .inl h⟩

lemma LocalsGrow.trans {L0 L1 L2 : Locals} (h : LocalsGrow L0 L1) (h' : LocalsGrow L1 L2) :
    LocalsGrow L0 L2 where
  size_le := h.size_le.trans h'.size_le
  kept p hp := h'.kept p (h.kept p hp)
  added p hp := by
    rcases h'.added p hp with hp | hp
    · exact h.added p hp
    · exact .inr (h.size_le.trans hp)

lemma LocalsOk.push {L : Locals} (h : LocalsOk L) (decl : LocalDecl) :
    LocalsOk { L with decls := L.decls.push decl } :=
  ⟨h.matched, fun p hp => (h.declared p hp).trans (by simp)⟩

lemma LocalsGrow.push (L : Locals) (decl : LocalDecl) :
    LocalsGrow L { L with decls := L.decls.push decl } :=
  ⟨by simp, fun _ h => h, fun _ h => .inl h⟩

/-- The names of a body agree with what a step of desugaring made of `before`; the locals of that
step may be written. -/
structure Naming.Of (N : Naming) (before after : Locals) : Prop where
  named : ∀ p ∈ after.bindings, p ∈ N.bindings
  later : ∀ p ∈ N.bindings, p ∈ after.bindings ∨ after.decls.size ≤ p.2.id
  free : ∀ var, N.kept var → ¬ (before.decls.size ≤ var.id ∧ var.id < after.decls.size)

/-- What a step of desugaring returns is right under the names of the whole body. -/
def Translates {α : Type} (m : DesugarM α) (R : Naming → α → Prop) : Prop :=
  ∀ L0 result L1, LocalsOk L0 → m L0 = .ok (result, L1) →
    LocalsOk L1 ∧ LocalsGrow L0 L1 ∧ ∀ N : Naming, N.Of L0 L1 → R N result

namespace Translates

variable {α β : Type} {m : DesugarM α} {R : Naming → α → Prop}

lemma pure {result : α} (h : ∀ N, R N result) : Translates (Pure.pure result) R := by
  rintro L0 _ _ hok ⟨⟩
  exact ⟨hok, .refl _, fun N _ => h N⟩

lemma inconsistent {span : Span} {cause : Inconsistency} :
    Translates (Core.inconsistent span cause) R := by
  rintro L0 result L1 - ⟨⟩

lemma bind {f : α → DesugarM β} {R' : Naming → β → Prop} (hm : Translates m R)
    (hf : ∀ a, Translates (f a) fun N b => R N a → R' N b) : Translates (m >>= f) R' := by
  intro L0 b L2 hok h
  change (m L0 >>= fun p => f p.1 p.2) = _ at h
  rcases hr : m L0 with e | ⟨a, L1⟩
  · rw [hr] at h
    cases h
  · rw [hr] at h
    obtain ⟨hok1, hgrows1, hright1⟩ := hm L0 a L1 hok hr
    obtain ⟨hok2, hgrows2, hright2⟩ := hf a L1 b L2 hok1 h
    refine ⟨hok2, hgrows1.trans hgrows2, fun N hN => ?_⟩
    have hN1 : N.Of L0 L1 := by
      refine ⟨fun p hp => hN.named p (hgrows2.kept p hp), fun p hp => ?_, fun var hvar h => ?_⟩
      · rcases hN.later p hp with hp | hp
        · exact hgrows2.added p hp
        · exact .inr (hgrows2.size_le.trans hp)
      · exact hN.free var hvar ⟨h.1, h.2.trans_le hgrows2.size_le⟩
    have hN2 : N.Of L1 L2 :=
      ⟨hN.named, hN.later, fun var hvar h => hN.free var hvar ⟨hgrows1.size_le.trans h.1, h.2⟩⟩
    exact hright2 N hN2 (hright1 N hN1)

lemma inconsistent_bind {span : Span} {cause : Inconsistency} {f : β → DesugarM α} :
    Translates (Core.inconsistent span cause >>= f) R := by
  rintro L0 result L1 - ⟨⟩

lemma mono {R' : Naming → α → Prop} (hm : Translates m R) (h : ∀ N a, R N a → R' N a) :
    Translates m R' := by
  intro L0 a L1 hok hr
  obtain ⟨hok1, hgrows, hright⟩ := hm L0 a L1 hok hr
  exact ⟨hok1, hgrows, fun N hN => h N a (hright N hN)⟩

lemma map {f : α → β} {R' : Naming → β → Prop} (hm : Translates m R)
    (h : ∀ N a, R N a → R' N (f a)) : Translates (m >>= fun a => Pure.pure (f a)) R' :=
  hm.bind fun a => .pure fun N => h N a

/-- A local of its own may be written by the step that declares it and by nothing in between. -/
lemma fresh {decl : LocalDecl} {f : Local → DesugarM β} {R' : Naming → β → Prop}
    (hf : ∀ var, Translates (f var) fun N b =>
      ∀ N0 : Naming, ∀ h : ∀ p ∈ N0.bindings, p.2 ≠ var, ¬ N0.kept var →
        N = N0.keep var h → R' N0 b) :
    Translates (freshLocal decl >>= f) R' := by
  intro L0 b L2 hok h
  have hgrows1 := LocalsGrow.push L0 decl
  obtain ⟨hok2, hgrows2, hright⟩ := hf ⟨L0.decls.size⟩ _ b L2 (hok.push decl) h
  refine ⟨hok2, hgrows1.trans hgrows2, fun N hN => ?_⟩
  have hsize : L0.decls.size + 1 ≤ L2.decls.size := by simpa using hgrows2.size_le
  have hvar : ∀ p ∈ N.bindings, p.2 ≠ ⟨L0.decls.size⟩ := by
    rintro ⟨b, var⟩ hp rfl
    rcases hN.later _ hp with hp | hp
    · rcases hgrows2.added _ hp with hp | hp
      · exact absurd (hok.declared _ hp) (lt_irrefl _)
      · simp only [Array.size_push] at hp
        omega
    · have : L2.decls.size ≤ L0.decls.size := hp
      omega
  have hkept : ¬ N.kept ⟨L0.decls.size⟩ := fun h => hN.free _ h ⟨le_rfl, hsize⟩
  refine hright (N.keep _ hvar) ⟨hN.named, hN.later, fun v hv hrange => ?_⟩ N hvar hkept rfl
  rcases hv with hv | rfl
  · exact hN.free v hv ⟨hgrows1.size_le.trans hrange.1, hrange.2⟩
  · simp only [Array.size_push] at hrange
    omega

end Translates

lemma mem_of_lookup_eq_some {bindings : List (Nat × Local)}
    (h : bindings.lookup binding = some var) : (binding, var) ∈ bindings := by
  obtain ⟨before, after, rfl, -⟩ := List.lookup_eq_some_iff.1 h
  simp

lemma bindLocal_known {L : Locals} (h : L.bindings.lookup binding = some var) (decl : LocalDecl) :
    bindLocal binding decl L = .ok (var, { L with
      decls := L.decls.modify var.id fun known =>
        { known with
          mutable := known.mutable || decl.mutable
          captured := known.captured || decl.captured } }) := by
  simp only [bindLocal, bind, StateT.bind, Except.bind, get, getThe, MonadStateOf.get, StateT.get,
    pure, Except.pure, h]
  rfl

lemma bindLocal_new {L : Locals} (h : L.bindings.lookup binding = none) (decl : LocalDecl) :
    bindLocal binding decl L = .ok (⟨L.decls.size⟩,
      ⟨L.decls.push decl, (binding, ⟨L.decls.size⟩) :: L.bindings⟩) := by
  simp only [bindLocal, bind, StateT.bind, Except.bind, get, getThe, MonadStateOf.get, StateT.get,
    pure, Except.pure, h]
  rfl

lemma bindLocal_translates (binding : Nat) (decl : LocalDecl) :
    Translates (bindLocal binding decl) fun N var => (binding, var) ∈ N.bindings := by
  intro L0 var L1 hok h
  rcases hlookup : L0.bindings.lookup binding with _ | known
  · rw [bindLocal_new hlookup] at h
    cases h
    have hnew : ∀ p ∈ L0.bindings, p.1 ≠ binding := by
      intro p hp heq
      have := List.lookup_eq_none_iff.1 hlookup p hp
      simp [heq] at this
    have hdeclared : ∀ p ∈ L0.bindings, p.2 ≠ ⟨L0.decls.size⟩ := by
      intro p hp heq
      have := hok.declared p hp
      rw [heq] at this
      exact lt_irrefl _ this
    refine ⟨⟨?_, ?_⟩, ⟨?_, ?_, ?_⟩, fun N hN => hN.named _ (by simp)⟩
    · intro p hp q hq
      rcases List.mem_cons.1 hp with rfl | hp <;> rcases List.mem_cons.1 hq with rfl | hq
      · simp
      · simp [(hnew q hq).symm, (hdeclared q hq).symm]
      · simp [hnew p hp, hdeclared p hp]
      · exact hok.matched p hp q hq
    · intro p hp
      rcases List.mem_cons.1 hp with rfl | hp
      · simp
      · have := hok.declared p hp
        simp only [Array.size_push]
        omega
    · simp
    · intro p hp
      exact List.mem_cons_of_mem _ hp
    · intro p hp
      rcases List.mem_cons.1 hp with rfl | hp
      · exact .inr le_rfl
      · exact .inl hp
  · rw [bindLocal_known hlookup] at h
    cases h
    refine ⟨⟨hok.matched, fun p hp => ?_⟩, ⟨?_, fun _ h => h, fun _ h => .inl h⟩, fun N hN => ?_⟩
    · simpa using hok.declared p hp
    · simp
    · exact hN.named _ (mem_of_lookup_eq_some hlookup)

lemma eagerOp_translates (span : Span) (op : Source.BinaryOp) :
    Translates (eagerOp span op) fun _ op' => BinaryOp.ofSource? op = some op' := by
  rw [eagerOp]
  split
  next op' h => exact .pure fun _ => h
  next => exact .inconsistent

lemma fieldIndex_translates (A : Algebra) (types : TypeTable) (ty : Nat) (name : String)
    (span : Span) : Translates (fieldIndex types ty name span) fun _ index =>
      (fieldAt types ty name : Eval A Nat Nat) = pure index := by
  rw [fieldIndex]
  split
  next => exact .inconsistent
  next data hdata =>
    split
    next index _ hfield =>
      refine .pure fun _ => ?_
      simp [fieldAt, hdata, hfield]
    next => exact .inconsistent

section Forms

variable {A : Algebra} {types : TypeTable} {turns ret : Nat} {held : List (Local × Option A.Word)}

lemma evalStmts_append (stmts rest : List Stmt) :
    evalStmts A turns ret (stmts ++ rest) =
      evalStmts A turns ret stmts >>= fun _ => evalStmts A turns ret rest := by
  induction stmts with
  | nil => simp [evalStmts]
  | cons stmt stmts ih => simp [evalStmts, ih]

lemma evalStmts_singleton (stmt : Stmt) :
    evalStmts A turns ret [stmt] = evalStmt A turns ret stmt := by
  simp [evalStmts]

lemma evalBlock_wrap (expr : Expr) :
    evalBlock A turns ret (.wrap expr) = evalExpr A turns ret expr := by
  simp [Block.wrap, evalBlock, evalStmts]

lemma empty_follows (N : Naming) (node : Nat) (span : Span) :
    Follows N (evalBlock A turns ret (.empty node span)) (pure none) := by
  intro held hheld
  exact .pure none

lemma discard_evalBlock {block : Block} (h : block.tail = none) :
    discard (evalBlock A turns ret block) = evalStmts A turns ret block.stmts := by
  obtain ⟨node, span, stmts, tail⟩ := block
  cases h
  simp [evalBlock, Functor.discard, map_const]

lemma FollowsAt.matchResult (hheld : ∀ p ∈ held, N.kept p.1) (ty : Nat) (isErr : Bool)
    (value : Option A.Word) {vars : Option (Nat × Local)} (hvars : ∀ p ∈ vars, p ∈ N.bindings) :
    FollowsAt N held (Eval.matchResult A ty isErr value (vars.map (·.2)))
      (Eval.matchResult A ty isErr value (vars.map (·.1))) := by
  refine (FollowsAt.need value).bind fun result => (FollowsAt.act _).bind fun matched => ?_
  refine .ite _ (.bind ?_ fun _ => .pure true) (.pure false)
  cases vars with
  | none => exact .pure ()
  | some p => exact (FollowsAt.act _).bind fun payload => .write (hvars p rfl) hheld payload

lemma bindVar_translates (ty : Nat) (var : Option Source.Binding) :
    Translates (var.mapM (bindVar ty)) fun N var' =>
      ∃ vars : Option (Nat × Local), (∀ p ∈ vars, p ∈ N.bindings) ∧
        var' = vars.map (·.2) ∧ var.map (·.binding) = vars.map (·.1) := by
  cases var with
  | none => exact .pure fun N => ⟨none, by simp, rfl, rfl⟩
  | some var =>
    refine (bindLocal_translates var.binding _).map fun N known h => ?_
    exact ⟨some (var.binding, known), by simpa using h, rfl, rfl⟩

lemma desugarPattern_translates (A : Algebra) (scrutinee : Nat) (span : Span) (pattern : Source.Pattern) :
    Translates (desugarPattern types scrutinee span pattern) fun N pattern' =>
      ∀ value, Follows N (matchPattern A scrutinee value pattern')
        (matchSourcePattern A scrutinee value pattern) := by
  cases pattern with
  | wildcard => exact .pure fun N value held hheld => .pure true
  | bind var =>
    refine (bindLocal_translates var.binding _).map fun N known h value held hheld => ?_
    exact (FollowsAt.write h hheld value).bind fun _ => .pure true
  | int expected =>
    exact .pure fun N value held hheld => (FollowsAt.need value).bind fun word => .act _
  | bool expected =>
    exact .pure fun N value held hheld => (FollowsAt.need value).bind fun word => .act _
  | ok var =>
    rw [desugarPattern]
    split
    next ok _ _ =>
      refine (bindVar_translates ok var).map fun N var' h value held hheld => ?_
      obtain ⟨vars, hvars, rfl, heq⟩ := h
      rw [matchSourcePattern, heq]
      exact .matchResult hheld scrutinee false value hvars
    next => exact .inconsistent
  | err var =>
    rw [desugarPattern]
    split
    next err _ =>
      refine (bindVar_translates err var).map fun N var' h value held hheld => ?_
      obtain ⟨vars, hvars, rfl, heq⟩ := h
      rw [matchSourcePattern, heq]
      exact .matchResult hheld scrutinee true value hvars
    next => exact .inconsistent

/-- The loop over a range in core form. The bound is in a local of its own, which the body must not
write. -/
lemma countedLoop_followsAt (hheld : ∀ p ∈ held, N.kept p.1) {counter bound : Local}
    (hcounter : (binding, counter) ∈ N.bindings) (hbound : ∀ p ∈ N.bindings, p.2 ≠ bound)
    (hfree : ¬ N.kept bound) {first last : Expr} {first' last' : Eval A Nat (Option A.Word)}
    {body : Block} {body' : Eval A Nat (Option A.Word)}
    (hfirst : Follows N (evalExpr A turns ret first) first')
    (hlast : Follows N (evalExpr A turns ret last) last')
    (hbody : Follows (N.keep bound hbound) (evalBlock A turns ret body) body') (node : Nat)
    (span : Span) (inclusive : Bool) :
    FollowsAt N held
      (evalStmts A turns ret
        (Core.countedLoop node span counter bound first last inclusive body).stmts)
      (do
        Eval.write binding (← first')
        let limit ← last'
        countTo turns binding inclusive limit (discard body')) := by
  simp only [Core.countedLoop, evalStmts, evalStmt, evalExpr, evalBlock, countTo, Functor.discard,
    map_const, Function.comp, map_eq_pure_bind, Eval.need_some, bind_assoc, pure_bind, bind_pure_unit]
  refine (hfirst held hheld).bind fun start => (FollowsAt.write hcounter hheld start).bind fun _ => ?_
  refine (hlast held hheld).bind fun limit => ?_
  refine .hold hbound hfree hheld limit ?_
  have hheld' := Naming.keep_kept hbound hheld limit
  have hcounter' : (binding, counter) ∈ (N.keep bound hbound).bindings := hcounter
  refine .iterate ?_ ((hbody _ hheld').bind fun _ => .pure ()) ?_ turns
  · refine (FollowsAt.read hcounter').bind fun value => (FollowsAt.need value).bind fun word => ?_
    refine .read_held (List.mem_cons_self ..) ?_
    exact (FollowsAt.need limit).bind fun _ => (FollowsAt.act _).bind fun _ => .pure _
  · refine (FollowsAt.read hcounter').bind fun value => (FollowsAt.need value).bind fun word => ?_
    refine (FollowsAt.need _).bind fun one => (FollowsAt.act _).bind fun next => ?_
    exact .write hcounter' hheld' _

lemma branch_followsAt {cond : Expr} {body otherwise : Block} {cond' : Eval A Nat (Option A.Word)}
    {body' otherwise' : Eval A Nat Unit}
    (hcond : FollowsAt N held (evalExpr A turns ret cond) cond')
    (hbody : FollowsAt N held (discard (evalBlock A turns ret body)) body')
    (hotherwise : FollowsAt N held (discard (evalBlock A turns ret otherwise)) otherwise')
    (node : Nat) (span : Span) (ty : Nat) :
    FollowsAt N held (discard (evalExpr A turns ret ⟨node, span, ty, .ifElse cond body otherwise⟩))
      (do if A.truth (← Eval.need (← cond')) then body' else otherwise') := by
  simp only [evalExpr, Functor.discard, map_const, Function.comp, map_eq_pure_bind, bind_assoc]
  refine hcond.bind fun value => (FollowsAt.need value).bind fun word => ?_
  split
  · exact hbody
  · exact hotherwise

/-- A core expression has the type of its source and evaluates in step with it. -/
structure ExprFollows (A : Algebra) (types : TypeTable) (turns ret : Nat) (expr : LoadedExpr)
    (N : Naming) (expr' : Expr) : Prop where
  ty_eq : expr'.ty = expr.ty
  follows : Follows N (evalExpr A turns ret expr') (evalSourceExpr A types turns ret expr)

/-- The value of a compound assignment, once the place has been read. -/
lemma compound_followsAt {op : Source.BinaryOp} {op' : BinaryOp}
    (hop : BinaryOp.ofSource? op = some op') {value : Expr} {value' : Eval A Nat (Option A.Word)}
    (hvalue : FollowsAt N held (evalExpr A turns ret value) value') (ty : Nat)
    (current : Option A.Word) {f : A.Word → Eval A Local Unit}
    {f' : Option A.Word → Eval A Nat Unit}
    (hf : ∀ word, FollowsAt N held (f word) (f' (some word))) :
    FollowsAt N held
      (do
        let left ← Eval.need current
        let right ← Eval.need (← evalExpr A turns ret value)
        let word ← Eval.act (A.binary op' ty left right)
        f word)
      (do
        let left ← Eval.need current
        let right ← value'
        f' (← applyOp op ty left right)) := by
  simp only [applyOp, hop, bind_assoc, pure_bind]
  refine (FollowsAt.need current).bind fun left => hvalue.bind fun right => ?_
  exact (FollowsAt.need right).bind fun word => (FollowsAt.act _).bind hf

section Assignments

variable {value : LoadedExpr}
  (hvalue : Translates (desugarExpr types value) (ExprFollows A types turns ret value))
  {node : Nat} {span : Span} {targetNode : Nat} {targetSpan : Span} {ty : Nat}
  {op : Option Source.BinaryOp}

include hvalue

lemma assignLocal_translates :
    Translates
      (desugarStmt types
        ⟨node, span, .assign ⟨targetNode, targetSpan, ty, .localVar binding name⟩ op value⟩)
      fun N stmts' => Follows N (evalStmts A turns ret stmts')
        (evalSourceStmt A types turns ret
          ⟨node, span, .assign ⟨targetNode, targetSpan, ty, .localVar binding name⟩ op value⟩) := by
  cases op with
  | none =>
    simp only [desugarStmt, pure_bind, List.nil_append]
    refine (bindLocal_translates binding _).bind fun var => ?_
    refine hvalue.map fun N value' hvalue hvar held hheld => ?_
    simp only [evalStmts_singleton, evalStmt, evalSourceStmt, evalSourcePlace, pure_bind, Spot.write]
    exact (hvalue.follows held hheld).bind fun value => .write hvar hheld value
  | some op =>
    simp only [desugarStmt, pure_bind, List.nil_append, Place.read]
    refine (bindLocal_translates binding _).bind fun var => hvalue.bind fun value' => ?_
    refine (eagerOp_translates span op).map fun N op' hop hvalue hvar held hheld => ?_
    simp only [evalStmts_singleton, evalStmt, evalExpr, evalSourceStmt, evalSourcePlace, Spot.read,
      Spot.write, bind_assoc, pure_bind]
    refine (FollowsAt.read hvar).bind fun current => ?_
    exact compound_followsAt hop (hvalue.follows held hheld) ty current fun word =>
      .write hvar hheld _

lemma assignGlobal_translates :
    Translates
      (desugarStmt types
        ⟨node, span, .assign ⟨targetNode, targetSpan, ty, .globalVar name⟩ op value⟩)
      fun N stmts' => Follows N (evalStmts A turns ret stmts')
        (evalSourceStmt A types turns ret
          ⟨node, span, .assign ⟨targetNode, targetSpan, ty, .globalVar name⟩ op value⟩) := by
  cases op with
  | none =>
    simp only [desugarStmt, pure_bind, List.nil_append]
    refine hvalue.map fun N value' hvalue held hheld => ?_
    simp only [evalStmts_singleton, evalStmt, evalSourceStmt, evalSourcePlace, pure_bind, Spot.write]
    exact (hvalue.follows held hheld).bind fun value => .forM value fun word => .act _
  | some op =>
    simp only [desugarStmt, pure_bind, List.nil_append, Place.read]
    refine hvalue.bind fun value' => ?_
    refine (eagerOp_translates span op).map fun N op' hop hvalue held hheld => ?_
    simp only [evalStmts_singleton, evalStmt, evalExpr, evalSourceStmt, evalSourcePlace, Spot.read,
      Spot.write, bind_assoc, pure_bind]
    refine (FollowsAt.act _).bind fun current => ?_
    exact compound_followsAt hop (hvalue.follows held hheld) ty current fun word =>
      .forM (some word) fun word => .act _

/-- The base of a field is evaluated once: a compound assignment keeps it in a local of its own,
which nothing in the operand writes. -/
lemma assignField_translates {base : LoadedExpr}
    (hbase : Translates (desugarExpr types base) (ExprFollows A types turns ret base)) :
    Translates
      (desugarStmt types
        ⟨node, span, .assign ⟨targetNode, targetSpan, ty, .field base name⟩ op value⟩)
      fun N stmts' => Follows N (evalStmts A turns ret stmts')
        (evalSourceStmt A types turns ret
          ⟨node, span, .assign ⟨targetNode, targetSpan, ty, .field base name⟩ op value⟩) := by
  cases op with
  | none =>
    simp only [desugarStmt, pure_bind, Option.isSome_none, Bool.false_eq_true,
      if_false, List.nil_append]
    refine hbase.bind fun base' => ?_
    refine (fieldIndex_translates A types base'.ty name targetSpan).bind fun index => ?_
    refine hvalue.map ?_
    rintro N value' ⟨-, hvalue⟩ hindex ⟨hty, hbase⟩ held hheld
    rw [hty] at hindex
    simp only [evalStmts_singleton, evalStmt, evalSourceStmt, evalSourcePlace, Spot.write, hindex,
      hty, bind_assoc, pure_bind]
    refine (hbase held hheld).bind fun record => (FollowsAt.need record).bind fun word => ?_
    exact (hvalue held hheld).bind fun value => .forM value fun word => .act _
  | some op =>
    simp only [desugarStmt, holdBase, bind_assoc, pure_bind, Option.isSome_some, if_true,
      List.cons_append, List.nil_append, Place.read]
    refine hbase.bind fun base' => ?_
    refine (fieldIndex_translates A types base'.ty name targetSpan).bind fun index => ?_
    refine .fresh fun var => hvalue.bind fun value' => ?_
    refine (eagerOp_translates span op).map ?_
    rintro _ op' hop ⟨-, hvalue⟩ N hvar hfree rfl hindex ⟨hty, hbase⟩ held hheld
    rw [hty] at hindex
    simp only [evalStmts, evalStmt, evalExpr, evalSourceStmt, evalSourcePlace, Spot.read, Spot.write,
      hindex, hty, bind_assoc, pure_bind, bind_pure_unit]
    refine (hbase held hheld).bind fun record => ?_
    refine .hold hvar hfree hheld record ?_
    refine .read_held (List.mem_cons_self ..) ?_
    cases record with
    | none => exact .throw _
    | some record =>
      simp only [Eval.need_some, pure_bind]
      refine .read_held (List.mem_cons_self ..) ?_
      refine (FollowsAt.act _).bind fun current => ?_
      exact compound_followsAt hop (hvalue _ (Naming.keep_kept hvar hheld _)) ty current fun word =>
        .forM (some word) fun word => .act _

end Assignments

section Operands

variable {lhs rhs cond : LoadedExpr} {body : LoadedBlock} {node : Nat} {span : Span} {ty : Nat}

lemma eagerBinary_translates
    (hlhs : Translates (desugarExpr types lhs) (ExprFollows A types turns ret lhs))
    (hrhs : Translates (desugarExpr types rhs) (ExprFollows A types turns ret rhs))
    (op : Source.BinaryOp) :
    Translates
      (do
        let op' ← eagerOp span op
        let lhs' ← desugarExpr types lhs
        let rhs' ← desugarExpr types rhs
        return (⟨node, span, ty, .binary op' lhs' rhs'⟩ : Expr))
      fun N expr' => expr'.ty = ty ∧
        Follows N (evalExpr A turns ret expr') (do
          let left ← Eval.need (← evalSourceExpr A types turns ret lhs)
          let right ← evalSourceExpr A types turns ret rhs
          applyOp op lhs.ty left right) := by
  refine (eagerOp_translates span op).bind fun op' => hlhs.bind fun lhs' => hrhs.map ?_
  rintro N rhs' ⟨-, hrhs⟩ ⟨hty, hlhs⟩ hop
  refine ⟨rfl, fun held hheld => ?_⟩
  simp only [evalExpr, applyOp, hop, hty]
  refine (hlhs held hheld).bind fun left => (FollowsAt.need left).bind fun left => ?_
  refine (hrhs held hheld).bind fun right => (FollowsAt.need right).bind fun right => ?_
  exact (FollowsAt.act _).bind fun result => .pure _

lemma ifElse_translates
    (hcond : Translates (desugarExpr types cond) (ExprFollows A types turns ret cond))
    (hbody : Translates (desugarBlock types body) fun N body' =>
      Follows N (evalBlock A turns ret body') (evalSourceBlock A types turns ret body))
    {m : DesugarM Block} {otherwise : Eval A Nat (Option A.Word)}
    (hotherwise : Translates m fun N block' => Follows N (evalBlock A turns ret block') otherwise) :
    Translates
      (do
        let cond' ← desugarExpr types cond
        let body' ← desugarBlock types body
        let otherwise' ← m
        return (⟨node, span, ty, .ifElse cond' body' otherwise'⟩ : Expr))
      fun N expr' => expr'.ty = ty ∧
        Follows N (evalExpr A turns ret expr') (do
          if A.truth (← Eval.need (← evalSourceExpr A types turns ret cond)) then
            evalSourceBlock A types turns ret body
          else otherwise) := by
  refine hcond.bind fun cond' => hbody.bind fun body' => hotherwise.map ?_
  rintro N otherwise' hotherwise hbody ⟨-, hcond⟩
  refine ⟨rfl, fun held hheld => ?_⟩
  refine (hcond held hheld).bind fun value => (FollowsAt.need value).bind fun word => ?_
  exact .ite _ (hbody held hheld) (hotherwise held hheld)

end Operands

/-! ### Blocks, statements and expressions -/

mutual

lemma desugarBlock_translates : ∀ block : LoadedBlock,
    Translates (desugarBlock types block) fun N block' =>
      Follows N (evalBlock A turns ret block') (evalSourceBlock A types turns ret block)
  | ⟨node, span, stmts, none⟩ => by
    refine (desugarStmts_translates stmts).map fun N stmts' h held hheld => ?_
    exact (h held hheld).bind fun _ => .pure none
  | ⟨node, span, stmts, some tail⟩ => by
    simp only [desugarBlock, map_eq_pure_bind, bind_assoc, pure_bind]
    refine (desugarStmts_translates stmts).bind fun stmts' => ?_
    refine (desugarExpr_translates tail).map fun N tail' htail hstmts held hheld => ?_
    exact (hstmts held hheld).bind fun _ => htail.2 held hheld

lemma desugarStmts_translates : ∀ stmts : List LoadedStmt,
    Translates (desugarStmts types stmts) fun N stmts' =>
      Follows N (evalStmts A turns ret stmts') (evalSourceStmts A types turns ret stmts)
  | [] => .pure fun N held hheld => by
    exact .pure ()
  | stmt :: rest => by
    refine (desugarStmt_translates stmt).bind fun stmts' => ?_
    refine (desugarStmts_translates rest).map fun N rest' hrest hstmt held hheld => ?_
    simp only [evalStmts_append, evalSourceStmts]
    exact (hstmt held hheld).bind fun _ => hrest held hheld

lemma desugarStmt_translates : ∀ stmt : LoadedStmt,
    Translates (desugarStmt types stmt) fun N stmts' =>
      Follows N (evalStmts A turns ret stmts') (evalSourceStmt A types turns ret stmt)
  | ⟨node, span, .letVar binding name mutable captured ty none⟩ => by
    simp only [desugarStmt, pure_bind]
    refine (bindLocal_translates binding _).map fun N var hvar held hheld => ?_
    exact .update hvar hheld A.unset
  | ⟨node, span, .letVar binding name mutable captured ty (some init)⟩ => by
    simp only [desugarStmt, map_eq_pure_bind, bind_assoc, pure_bind]
    refine (desugarExpr_translates init).bind fun init' => ?_
    refine (bindLocal_translates binding _).map fun N var hvar hinit held hheld => ?_
    simp only [evalStmts_singleton, evalStmt, evalSourceStmt]
    exact (hinit.2 held hheld).bind fun value => .write hvar hheld value
  | ⟨node, span, .assign ⟨targetNode, targetSpan, ty, kind⟩ op value⟩ => by
    have hvalue := desugarExpr_translates value
    cases kind with
    | localVar binding name => exact assignLocal_translates hvalue
    | globalVar name => exact assignGlobal_translates hvalue
    | field base name => exact assignField_translates hvalue (desugarExpr_translates base)
    | _ => exact .inconsistent_bind
  | ⟨node, span, .expr value⟩ => by
    refine (desugarExpr_translates value).map fun N value' h held hheld => ?_
    simp only [evalStmts_singleton, evalStmt, evalSourceStmt]
    exact (h.2 held hheld).discard
  | ⟨node, span, .ret none⟩ | ⟨node, span, .breakLoop⟩ | ⟨node, span, .continueLoop⟩ =>
    .pure fun N held hheld => by
      exact .throw _
  | ⟨node, span, .ret (some value)⟩ => by
    refine (desugarExpr_translates value).map fun N value' h held hheld => ?_
    simp only [evalStmts_singleton, evalStmt, evalSourceStmt]
    exact (h.2 held hheld).bind fun value => .throw _
  | ⟨node, span, .ifElse cond body otherwise⟩ => by
    refine (desugarExpr_translates cond).bind fun cond' => ?_
    refine (desugarBlock_translates body).bind fun body' => ?_
    refine (desugarElse_translates node span otherwise).map ?_
    rintro N otherwise' hotherwise hbody ⟨-, hcond⟩ held hheld
    simp only [evalStmts_singleton, evalStmt, evalSourceStmt]
    exact branch_followsAt (hcond held hheld) (hbody held hheld).discard (hotherwise held hheld)
      node span _
  | ⟨node, span, .whileLoop cond body⟩ => by
    refine (desugarExpr_translates cond).bind fun cond' => ?_
    refine (desugarBlock_translates body).map fun N body' hbody hcond held hheld => ?_
    simp only [evalStmts_singleton, evalStmt, evalSourceStmt]
    refine .iterate ?_ (hbody held hheld).discard (.pure ()) turns
    exact (hcond.2 held hheld).bind fun value => (FollowsAt.need value).bind fun _ => .pure _
  | ⟨node, span, .loop body⟩ => by
    refine (desugarBlock_translates body).map fun N body' hbody held hheld => ?_
    simp only [evalStmts_singleton, evalStmt, evalSourceStmt]
    exact .iterate (.pure true) (hbody held hheld).discard (.pure ()) turns
  | ⟨node, span, .forRange binding name first last inclusive body⟩ => by
    refine (desugarExpr_translates first).bind fun first' => ?_
    refine (desugarExpr_translates last).bind fun last' => ?_
    refine (bindLocal_translates binding _).bind fun counter => .fresh fun bound => ?_
    refine (desugarBlock_translates body).map ?_
    rintro _ body' hbody N hbound hfree rfl hcounter hlast hfirst held hheld
    simp only [evalStmts_singleton, evalStmt, evalExpr, evalSourceStmt]
    rw [discard_evalBlock rfl]
    exact countedLoop_followsAt hheld hcounter hbound hfree hfirst.follows hlast.follows hbody
      node span inclusive

lemma desugarElse_translates (node : Nat) (span : Span) :
    ∀ otherwise : Option (Source.Else Nat Span Nat),
    Translates (desugarElse types node span otherwise) fun N block' =>
      Follows N (discard (evalBlock A turns ret block'))
        (evalSourceElse A types turns ret otherwise)
  | none => .pure fun N held hheld => by
    exact (empty_follows N node span held hheld).discard
  | some (.block body) => by
    refine (desugarBlock_translates body).mono fun N body' hbody held hheld => ?_
    exact (hbody held hheld).discard
  | some (.chain ⟨node, span, kind⟩) => by
    cases kind with
    | ifElse cond body otherwise =>
      refine (desugarExpr_translates cond).bind fun cond' => ?_
      refine (desugarBlock_translates body).bind fun body' => ?_
      refine (desugarElse_translates node span otherwise).map ?_
      rintro N otherwise' hotherwise hbody ⟨-, hcond⟩ held hheld
      simp only [evalBlock_wrap, evalSourceElse, evalSourceStmt]
      exact branch_followsAt (hcond held hheld) (hbody held hheld).discard (hotherwise held hheld)
        node span _
    | _ => exact .inconsistent

lemma desugarExpr_translates : ∀ expr : LoadedExpr,
    Translates (desugarExpr types expr) (ExprFollows A types turns ret expr)
  | ⟨node, span, ty, .literal value⟩ => .pure fun N => ⟨rfl, fun held hheld => by
    exact .pure _⟩
  | ⟨node, span, ty, .localVar binding name⟩ => by
    refine (bindLocal_translates binding _).map fun N var hvar => ⟨rfl, fun held hheld => ?_⟩
    exact .read hvar
  | ⟨node, span, ty, .globalVar name⟩ => .pure fun N => ⟨rfl, fun held hheld => by
    exact .act _⟩
  | ⟨node, span, ty, .binary op lhs rhs⟩ => by
    have hlhs := desugarExpr_translates lhs
    have hrhs := desugarExpr_translates rhs
    cases op with
    | and =>
      refine hlhs.bind fun lhs' => hrhs.map fun N rhs' hrhs hlhs => ⟨rfl, fun held hheld => ?_⟩
      refine (hlhs.follows held hheld).bind fun left => (FollowsAt.need left).bind fun word => ?_
      exact .ite _ (hrhs.follows held hheld) (.pure _)
    | or =>
      refine hlhs.bind fun lhs' => hrhs.map fun N rhs' hrhs hlhs => ⟨rfl, fun held hheld => ?_⟩
      refine (hlhs.follows held hheld).bind fun left => (FollowsAt.need left).bind fun word => ?_
      exact .ite _ (.pure _) (hrhs.follows held hheld)
    | _ =>
      refine (eagerBinary_translates hlhs hrhs _).mono fun N expr' h => ⟨h.1, ?_⟩
      simpa only [evalSourceExpr] using h.2
  | ⟨node, span, ty, .unary _ operand⟩ | ⟨node, span, ty, .cast operand⟩ => by
    refine (desugarExpr_translates operand).map ?_
    refine fun N operand' ⟨hty, h⟩ => ⟨rfl, fun held hheld => ?_⟩
    simp only [evalExpr, evalSourceExpr, hty]
    refine (h held hheld).bind fun value => (FollowsAt.need value).bind fun word => ?_
    exact (FollowsAt.act _).bind fun result => .pure _
  | ⟨node, span, ty, .call callee args⟩ => by
    refine (desugarExprs_translates args).map fun N args' h => ⟨rfl, fun held hheld => ?_⟩
    refine (h held hheld).bind fun values => (FollowsAt.act _).bind fun result => ?_
    exact .ite _ (.throw _) (.pure _)
  | ⟨node, span, ty, .field base name⟩ => by
    refine (desugarExpr_translates base).bind fun base' => ?_
    refine (fieldIndex_translates A types base'.ty name span).map ?_
    refine fun N index hindex ⟨hty, h⟩ => ⟨rfl, fun held hheld => ?_⟩
    rw [hty] at hindex
    simp only [evalExpr, evalSourceExpr, hty, hindex, pure_bind]
    exact (h held hheld).bind fun value => (FollowsAt.need value).bind fun word => .act _
  | ⟨node, span, ty, .data inits⟩ => by
    simp only [desugarExpr]
    split
    next => exact .inconsistent
    next data hdata =>
      split
      next => exact .inconsistent
      next =>
        refine (desugarInits_translates span ty data hdata [] inits).map fun N inits' h => ?_
        refine ⟨rfl, fun held hheld => ?_⟩
        exact (FollowsAt.act _).bind fun record => (h record held hheld).bind fun _ => .pure _
  | ⟨node, span, ty, .ok value⟩ | ⟨node, span, ty, .err value⟩ => by
    refine (desugarExpr_translates value).map fun N value' h => ⟨rfl, fun held hheld => ?_⟩
    exact (h.follows held hheld).bind fun value => (FollowsAt.act _).bind fun result => .pure _
  | ⟨node, span, ty, .ifElse cond body none⟩ => by
    refine (ifElse_translates (desugarExpr_translates cond) (desugarBlock_translates body)
      (.pure fun N => empty_follows N node span)).mono fun N expr' h => ⟨h.1, ?_⟩
    simpa only [evalSourceExpr] using h.2
  | ⟨node, span, ty, .ifElse cond body (some ⟨otherNode, otherSpan, otherTy, kind⟩)⟩ => by
    have hcond := desugarExpr_translates cond
    have hbody := desugarBlock_translates body
    have hwrap : Translates (Block.wrap <$> desugarExpr types ⟨otherNode, otherSpan, otherTy, kind⟩)
        fun N block' => Follows N (evalBlock A turns ret block')
          (evalSourceExpr A types turns ret ⟨otherNode, otherSpan, otherTy, kind⟩) := by
      refine (desugarExpr_translates ⟨otherNode, otherSpan, otherTy, kind⟩).map fun N other' h => ?_
      exact h.follows
    cases kind with
    | block other =>
      refine (ifElse_translates hcond hbody (desugarBlock_translates other)).mono ?_
      refine fun N expr' h => ⟨h.1, ?_⟩
      simpa only [evalSourceExpr] using h.2
    | _ =>
      exact (ifElse_translates hcond hbody hwrap).mono fun N expr' h => ⟨h.1, h.2⟩
  | ⟨node, span, ty, .matchOn scrutinee arms⟩ => by
    refine (desugarExpr_translates scrutinee).bind fun scrutinee' => ?_
    refine (desugarArms_translates scrutinee'.ty arms).map ?_
    refine fun N arms' harms ⟨hty, h⟩ => ⟨rfl, fun held hheld => ?_⟩
    simp only [evalExpr, evalSourceExpr, ← hty]
    exact (h held hheld).bind fun value => harms value held hheld
  | ⟨node, span, ty, .block body⟩ => by
    refine (desugarBlock_translates body).map fun N body' h => ⟨rfl, fun held hheld => ?_⟩
    exact h held hheld
  | ⟨node, span, ty, .propagate value⟩ => by
    refine (desugarExpr_translates value).map ?_
    refine fun N value' ⟨hty, h⟩ => ⟨rfl, fun held hheld => ?_⟩
    simp only [evalExpr, evalSourceExpr, Eval.propagate, hty]
    refine (h held hheld).bind fun value => (FollowsAt.need value).bind fun word => ?_
    refine (FollowsAt.act _).bind fun failed => .ite _ ?_ (.act _)
    exact (FollowsAt.act _).bind fun result => .throw _

lemma desugarExprs_translates : ∀ exprs : List LoadedExpr,
    Translates (desugarExprs types exprs) fun N exprs' =>
      Follows N (evalArgs A turns ret exprs') (evalSourceArgs A types turns ret exprs)
  | [] => .pure fun N held hheld => by
    exact .pure []
  | expr :: rest => by
    refine (desugarExpr_translates expr).bind fun expr' => ?_
    refine (desugarExprs_translates rest).map fun N rest' hrest hexpr held hheld => ?_
    refine (hexpr.follows held hheld).bind fun value => ?_
    exact (hrest held hheld).bind fun values => .pure _

lemma desugarInits_translates (span : Span) (ty : Nat) (data : Source.DataType)
    (hdata : dataOf? types ty = some data) (seen : List Nat) :
    ∀ inits : List (Source.FieldInit Nat Span Nat),
    Translates (desugarInits types data span seen inits) fun N inits' =>
      ∀ record, Follows N (evalInits A turns ret ty record inits')
        (evalSourceInits A types turns ret ty record inits)
  | [] => .pure fun N record held hheld => by
    exact .pure ()
  | ⟨name, value⟩ :: rest => by
    simp only [desugarInits]
    split
    next => exact .inconsistent
    next index _ hfield =>
      split
      next => exact .inconsistent_bind
      next =>
        have hindex : (fieldAt types ty name : Eval A Nat Nat) = pure index := by
          simp [fieldAt, hdata, hfield]
        refine (desugarExpr_translates value).bind fun value' => ?_
        refine (desugarInits_translates span ty data hdata _ rest).map ?_
        intro N rest' hrest hvalue record held hheld
        simp only [evalInits, evalSourceInits, hindex, pure_bind]
        refine (hvalue.follows held hheld).bind fun value => ?_
        exact (FollowsAt.forM value fun word => .act _).bind fun _ => hrest record held hheld

lemma desugarArms_translates (scrutinee : Nat) : ∀ arms : List (Source.Arm Nat Span Nat),
    Translates (desugarArms types scrutinee arms) fun N arms' =>
      ∀ value, Follows N (evalArms A turns ret scrutinee value arms')
        (evalSourceArms A types turns ret scrutinee value arms)
  | [] => .pure fun N value held hheld => by
    exact .throw _
  | ⟨pattern, body, span⟩ :: rest => by
    refine (desugarPattern_translates A scrutinee span pattern).bind fun pattern' => ?_
    refine (desugarExpr_translates body).bind fun body' => ?_
    refine (desugarArms_translates scrutinee rest).map ?_
    intro N rest' hrest hbody hpattern value held hheld
    refine (hpattern value held hheld).bind fun matched => ?_
    exact .ite _ (hbody.follows held hheld) (hrest value held hheld)

end

end Forms

/-! ### Bodies -/

/-- What the locals of a body hold at the start, given what the bindings of the source hold. -/
def initialLocals {ω : Type} (bindings : List (Nat × Local)) (vars : Nat → Option ω) (var : Local) :
    Option ω :=
  (bindings.find? (·.2 = var)).bind fun p => vars p.1

lemma initialLocals_eq {ω : Type} (vars : Nat → Option ω) {p : Nat × Local} (hp : p ∈ N.bindings) :
    initialLocals N.bindings vars p.2 = vars p.1 := by
  have hfound : (N.bindings.find? (·.2 = p.2)).isSome := by
    simp only [List.find?_isSome, decide_eq_true_eq]
    exact ⟨p, hp, rfl⟩
  obtain ⟨q, hq⟩ := Option.isSome_iff_exists.1 hfound
  have heq : q.2 = p.2 := by simpa using List.find?_some hq
  have hbinding : q.1 = p.1 := (N.matched q (List.mem_of_find?_eq_some hq) p hp).2 heq
  simp only [initialLocals, hq, Option.bind_some, hbinding]

lemma params_translate (A : Algebra) (params : List (Source.Param Nat Span)) :
    Translates
      (params.mapM fun param =>
        bindLocal param.binding { name := param.name, ty := param.ty, mutable := param.mutable })
      fun N vars => ∀ args : List (Option A.Word),
        Follows N (bindParams vars args) (bindParams (params.map (·.binding)) args) := by
  induction params with
  | nil => exact .pure fun N args held hheld => .pure ()
  | cons param params ih =>
    rw [List.mapM_cons]
    refine (bindLocal_translates param.binding _).bind fun var => ih.map ?_
    intro N vars hvars hvar args held hheld
    cases args with
    | nil => exact .pure ()
    | cons arg args => exact (FollowsAt.write hvar hheld arg).bind fun _ => hvars args held hheld

lemma Follows.progress_eq {A : Algebra} {core : Eval A Local (Option A.Word)}
    {source : Eval A Nat (Option A.Word)} (h : Follows N core source) {s : EvalState A Nat}
    {c : EvalState A Local} (hstart : Agree N [] s c) : core.progress c = source.progress s := by
  have hend := h [] (by simp) s c hstart
  simp only [Eval.progress]
  generalize source s = last' at hend ⊢
  generalize core c = last at hend ⊢
  cases hend with
  | ok value h => simp only [h.memory, h.trace]
  | error exit h => cases exit <;> simp only [h.memory, h.trace]

lemma desugarFunction_translates (A : Algebra) (types : TypeTable) (turns ret : Nat)
    (params : List (Source.Param Nat Span)) (block : LoadedBlock) :
    Translates (desugarFunction types params block) fun N result =>
      ∀ args : List (Option A.Word), Follows N
        (do
          bindParams result.1 args
          evalBlock A turns ret result.2)
        (do
          bindParams (params.map (·.binding)) args
          evalSourceBlock A types turns ret block) := by
  refine (params_translate A params).bind fun vars => ?_
  have hblock := @desugarBlock_translates A types turns ret block
  refine hblock.map fun N block' hblock hvars args held hheld => ?_
  exact (hvars args held hheld).bind fun _ => hblock held hheld

/-- Desugaring preserves meaning: over every algebra and whatever the variables hold at the start,
the core form of a function comes to what the function comes to, for all arguments and however many
turns the loops may take. -/
theorem desugar_preserves_meaning (types : TypeTable) (item : Source.LoadedItem) (body : Body)
    (h : desugar types item = .ok (some body)) :
    ∃ params ret block, item.kind = .function params ret (some block) ∧
      ∀ (A : Algebra) (vars : Nat → Option A.Word), ∃ locals : Local → Option A.Word,
        ∀ args memory turns,
          evalBody A locals body args memory turns =
            evalSourceFunction A types vars params ret block args memory turns := by
  rw [desugar] at h
  split at h
  next params ret block hkind =>
    refine ⟨params, ret, block, hkind, fun A vars => ?_⟩
    rcases hrun : (desugarFunction types params block).run {} with e | ⟨⟨params', block'⟩, locals⟩
    · rw [hrun] at h
      cases h
    · rw [hrun] at h
      cases h
      have hstart : LocalsOk {} := ⟨by simp, by simp⟩
      have hresult turns := desugarFunction_translates A types turns ret params block _ _ _ hstart hrun
      let N : Naming := ⟨locals.bindings, fun _ => False, (hresult 0).1.matched, by simp⟩
      have hN : N.Of {} locals := ⟨fun _ h => h, fun _ h => .inl h, fun _ h => h.elim⟩
      refine ⟨initialLocals locals.bindings vars, fun args memory turns => ?_⟩
      have hagree : Agree N [] { vars, memory, trace := [] }
          { vars := initialLocals locals.bindings vars, memory, trace := [] } :=
        ⟨rfl, rfl, fun p hp => initialLocals_eq (N := N) vars hp, by simp⟩
      exact ((hresult turns).2.2 N hN args).progress_eq hagree
  next => cases h

/-- A function that adds up the numbers below its parameter. -/
def sumBelow : Source.LoadedItem :=
  let int (kind : Source.ExprKind Nat Span Nat) : LoadedExpr := ⟨0, .zero, TypeTable.int, kind⟩
  let stmt (kind : Source.StmtKind Nat Span Nat) : LoadedStmt := ⟨0, .zero, kind⟩
  let add := stmt (.assign (int (.localVar 1 "sum")) (some .add) (int (.localVar 2 "i")))
  let loop := stmt (.forRange 2 "i" (int (.literal (.int 0))) (int (.localVar 0 "n")) false
    ⟨0, .zero, [add], none⟩)
  let start := stmt (.letVar 1 "sum" true false TypeTable.int (some (int (.literal (.int 0)))))
  { node := 0
    span := .zero
    name := "sum"
    kind := .function [⟨0, "n", TypeTable.int, false, .zero⟩] TypeTable.int
      (some ⟨0, .zero, [start, loop], some (int (.localVar 1 "sum"))⟩) }

theorem sumBelow_preserves_meaning :
    ∃ body, desugar TypeTable.initial sumBelow = .ok (some body) ∧
      ∃ params ret block, sumBelow.kind = .function params ret (some block) ∧
        ∀ (A : Algebra) (vars : Nat → Option A.Word), ∃ locals : Local → Option A.Word,
          ∀ args memory turns,
            evalBody A locals body args memory turns =
              evalSourceFunction A TypeTable.initial vars params ret block args memory turns :=
  ⟨_, rfl, desugar_preserves_meaning TypeTable.initial sumBelow _ rfl⟩

end SsaLowering.Proofs
