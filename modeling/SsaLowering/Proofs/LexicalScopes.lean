import SsaLowering.Proofs.LoweringMatches
import SsaLowering.Proofs.SilentSteps

/-!
# Lexical scopes

The outline of a body lists its declarations, its uses of locals and its scopes in the order in
which they are lowered. Lowering walks along the outline: it binds what is declared, looks up what
is used and hides at the end of a scope what was bound in it. So a use finds a binding exactly if it
is in the scope of a declaration.
-/

namespace SsaLowering.Proofs

open Ir Lowering List
open SsaLowering.Core (Local Pattern)

/-- Declarations, uses and scopes. A declaration is visible in the rest of its scope. -/
inductive Outline where
  | done
  | declare (var : Local) (rest : Outline)
  | use (var : Local) (span : Span) (rest : Outline)
  | scope (inner rest : Outline)

namespace Outline

/-- One outline after another; what the first declares itself is visible in the second. -/
protected def append : Outline → Outline → Outline
  | done, o => o
  | declare var rest, o => declare var (rest.append o)
  | use var span rest, o => use var span (rest.append o)
  | scope inner rest, o => scope inner (rest.append o)

instance : Append Outline := ⟨Outline.append⟩

@[simp] lemma done_append (o : Outline) : done ++ o = o := rfl

@[simp] lemma append_done (o : Outline) : o ++ done = o := by
  induction o with
  | done => rfl
  | declare var rest ih => exact congrArg (declare var) ih
  | use var span rest ih => exact congrArg (use var span) ih
  | scope inner rest _ ih => exact congrArg (scope inner) ih

/-- All locals that are declared, in whatever scope. -/
def declares : Outline → List Local
  | done => []
  | declare var rest => var :: rest.declares
  | use _ _ rest => rest.declares
  | scope inner rest => inner.declares ++ rest.declares

/-- The locals declared in the scope itself, the last first. -/
def own : Outline → List Local
  | done => []
  | declare var rest => rest.own ++ [var]
  | use _ _ rest | scope _ rest => rest.own

lemma own_subset {var : Local} : ∀ {o : Outline}, var ∈ o.own → var ∈ o.declares
  | declare _ rest, h => by
    rcases mem_append.mp h with h | h
    · exact mem_cons_of_mem _ (own_subset h)
    · exact mem_cons.mpr (.inl (mem_singleton.mp h))
  | use _ _ rest, h => own_subset (o := rest) h
  | scope _ rest, h => mem_append_right _ (own_subset (o := rest) h)

/-- The uses outside of the scope of a declaration. -/
def strays (visible : List Local) : Outline → List (Local × Span)
  | done => []
  | declare var rest => rest.strays (var :: visible)
  | use var span rest => (if var ∈ visible then [] else [(var, span)]) ++ rest.strays visible
  | scope inner rest => inner.strays visible ++ rest.strays visible

/-- The declarations and the uses, with what each use finds, given what is held for each local. -/
def trace (held : Local → Binding) (visible : List Local) : Outline → List Note
  | done => []
  | declare var rest => .bound var (held var) :: rest.trace held (var :: visible)
  | use var _ rest =>
    .used var (if var ∈ visible then some (held var) else none) :: rest.trace held visible
  | scope inner rest => inner.trace held visible ++ rest.trace held visible

lemma trace_congr {held held' : Local → Binding} : ∀ {o : Outline} {visible : List Local},
    (∀ var, var ∈ visible ∨ var ∈ o.declares → held var = held' var) →
      o.trace held visible = o.trace held' visible
  | done, _, _ => rfl
  | declare var rest, visible, h => by
    have hrest : rest.trace held (var :: visible) = rest.trace held' (var :: visible) :=
      trace_congr fun other hother => h other
        (by simpa [declares, or_assoc, or_comm, or_left_comm] using hother)
    rw [trace, trace, hrest, h var (.inr (mem_cons_self ..))]
  | use var _ rest, visible, h => by
    rw [trace, trace, trace_congr (o := rest) h]
    split
    · next hmem => rw [h var (.inl hmem)]
    · rfl
  | scope inner rest, visible, h => by
    rw [trace, trace, trace_congr fun other hother => h other (hother.imp_right (mem_append_left _)),
      trace_congr fun other hother => h other (hother.imp_right (mem_append_right _))]

/-- The locals that a pattern binds. -/
def ofPattern : Pattern → Outline
  | .bind var | .ok (some var) | .err (some var) => declare var done
  | _ => done

end Outline

open Outline (done declare use scope)

mutual

/-- The outline of a block: one scope, in the order in which it is lowered. -/
def outlineOfBlock : Core.Block → Outline
  | ⟨_, _, stmts, none⟩ => scope (outlineOfStmts stmts) done
  | ⟨_, _, stmts, some tail⟩ => scope (outlineOfStmts stmts ++ outlineOfExpr tail) done

def outlineOfStmts : List Core.Stmt → Outline
  | [] => done
  | stmt :: rest => outlineOfStmt stmt ++ outlineOfStmts rest

/-- A local is declared behind its initial value, and used behind what is assigned to it. -/
def outlineOfStmt : Core.Stmt → Outline
  | ⟨_, _, .letVar var none⟩ => declare var done
  | ⟨_, _, .letVar var (some init)⟩ => outlineOfExpr init ++ declare var done
  | ⟨_, span, .assign (.localVar var) value⟩ => outlineOfExpr value ++ use var span done
  | ⟨_, _, .assign (.globalVar _) value⟩ => outlineOfExpr value
  | ⟨_, _, .assign (.field base _) value⟩ => outlineOfExpr base ++ outlineOfExpr value
  | ⟨_, _, .expr value⟩ | ⟨_, _, .ret (some value)⟩ => outlineOfExpr value
  | ⟨_, _, .ret none⟩ | ⟨_, _, .breakLoop⟩ | ⟨_, _, .continueLoop⟩ => done
  | ⟨_, _, .loop none body none⟩ => outlineOfBlock body
  | ⟨_, _, .loop none body (some step)⟩ => outlineOfBlock body ++ outlineOfBlock step
  | ⟨_, _, .loop (some cond) body none⟩ => outlineOfExpr cond ++ outlineOfBlock body
  | ⟨_, _, .loop (some cond) body (some step)⟩ =>
    outlineOfExpr cond ++ (outlineOfBlock body ++ outlineOfBlock step)

/-- Operands from left to right; each block and each arm has a scope of its own. -/
def outlineOfExpr : Core.Expr → Outline
  | ⟨_, _, _, .literal _⟩ | ⟨_, _, _, .globalVar _⟩ => done
  | ⟨_, span, _, .localVar var⟩ => use var span done
  | ⟨_, _, _, .binary _ lhs rhs⟩ => outlineOfExpr lhs ++ outlineOfExpr rhs
  | ⟨_, _, _, .unary _ value⟩ | ⟨_, _, _, .cast value⟩ | ⟨_, _, _, .field value _⟩
  | ⟨_, _, _, .ok value⟩ | ⟨_, _, _, .err value⟩ | ⟨_, _, _, .propagate value⟩ => outlineOfExpr value
  | ⟨_, _, _, .call _ args⟩ => outlineOfArgs args
  | ⟨_, _, _, .data inits⟩ => outlineOfInits inits
  | ⟨_, _, _, .ifElse cond body otherwise⟩ =>
    outlineOfExpr cond ++ (outlineOfBlock body ++ outlineOfBlock otherwise)
  | ⟨_, _, _, .matchOn scrutinee arms⟩ => outlineOfExpr scrutinee ++ outlineOfArms arms
  | ⟨_, _, _, .block body⟩ => outlineOfBlock body

def outlineOfArgs : List Core.Expr → Outline
  | [] => done
  | arg :: rest => outlineOfExpr arg ++ outlineOfArgs rest

def outlineOfInits : List Core.FieldInit → Outline
  | [] => done
  | ⟨_, value⟩ :: rest => outlineOfExpr value ++ outlineOfInits rest

/-- The arms behind one that always matches are not lowered. -/
def outlineOfArms : List Core.Arm → Outline
  | [] => done
  | ⟨pattern, body, _⟩ :: rest =>
    scope (.ofPattern pattern ++ outlineOfExpr body)
      (if pattern.isIrrefutable then done else outlineOfArms rest)

end

/-- The outline of a body: the parameters are visible in all of it. -/
def outlineOfBody (body : Core.Body) : Outline :=
  scope (body.params.foldr declare (outlineOfBlock body.block)) done

/-! ### Walking along an outline -/

/-- The report on a use of a local that is not visible. -/
def strayReport (ctx : Context) (var : Local) (span : Span) : Report :=
  ⟨.unboundIdentifier, span, unboundMessage ctx var⟩

/-- What is seen changes as an outline says: each use notes what it finds, and reports if that is
nothing. -/
inductive WalksAlong (ctx : Context) : Outline → View → View → Prop where
  | done (v : View) : WalksAlong ctx done v v
  | declare {v v' : View} {var : Local} {rest : Outline} (binding : Binding) :
    WalksAlong ctx rest ⟨v.scopes.bind var binding, .bound var binding :: v.notes, v.reports⟩ v' →
    WalksAlong ctx (declare var rest) v v'
  | use {v v' : View} {var : Local} {span : Span} {rest : Outline} :
    WalksAlong ctx rest ⟨v.scopes, .used var (v.scopes.lookup var) :: v.notes, v.reports ++
      if (v.scopes.lookup var).isSome then [] else [strayReport ctx var span]⟩ v' →
    WalksAlong ctx (use var span rest) v v'
  | scope {v v1 v' : View} {inner rest : Outline} :
    WalksAlong ctx inner ⟨v.scopes.push, v.notes, v.reports⟩ v1 →
    WalksAlong ctx rest ⟨v1.scopes.pop, v1.notes, v1.reports⟩ v' →
    WalksAlong ctx (scope inner rest) v v'

lemma WalksAlong.append {ctx : Context} {o o' : Outline} {v v' v'' : View} (h : WalksAlong ctx o v v')
    (h' : WalksAlong ctx o' v' v'') : WalksAlong ctx (o ++ o') v v'' := by
  induction h with
  | done => exact h'
  | declare binding _ ih => exact .declare binding (ih h')
  | use _ ih => exact .use (ih h')
  | scope hinner _ _ ih => exact .scope hinner (ih h')

/-! ### Steps along an outline -/

/-- Steps that walk along an outline, and leave the loops around the cursor as they are. -/
def Walks {α : Type} (ctx : Context) (x : LowerM α) (o : Outline) : Prop :=
  ∀ ⦃s a s'⦄, x s = .ok a s' → WalksAlong ctx o (viewOf s) (viewOf s') ∧ Continues s s'

section Steps

variable {α β : Type} {ctx : Context} {x : LowerM α} {k : α → LowerM β} {o o' : Outline}
  {y : LowerM (Option Value)} (span : Span) (node : Nat)

namespace Walks

lemma silent (hx : Silent x) : Walks ctx x done := by
  intro s a s' h
  obtain ⟨hview, hon⟩ := hx h
  exact ⟨hview ▸ .done _, hon⟩

lemma bind (hx : Walks ctx x o) (hk : ∀ a, Walks ctx (k a) o') : Walks ctx (x >>= k) (o ++ o') := by
  intro s b s'' h
  obtain ⟨a, s', hx', hk'⟩ := bind_ok_iff.mp h
  exact ⟨(hx hx').1.append (hk a hk').1, (hx hx').2.trans (hk a hk').2⟩

lemma bind_silent (hx : Walks ctx x o) (hk : ∀ a, Silent (k a)) : Walks ctx (x >>= k) o := by
  simpa using hx.bind fun a => silent (hk a)

lemma silent_bind (hx : Silent x) (hk : ∀ a, Walks ctx (k a) o) : Walks ctx (x >>= k) o :=
  (silent hx).bind hk

lemma discard (hx : Walks ctx x o) : Walks ctx (Functor.discard x) o := by
  intro s u s' h
  obtain ⟨a, ha⟩ := discard_ok_iff.mp h
  exact hx ha

lemma at_node (hx : Walks ctx y o) {k : Option Value → LowerM β} (hk : ∀ v, Walks ctx (k v) o') :
    Walks ctx (do let value ← y; locate span node; k value) (o ++ o') :=
  hx.bind fun value => silent_bind (.locate span node) fun _ => hk value

lemma operand (hx : Walks ctx y o) {operandSpan : Span} {ty : Nat} {k : Value → LowerM β}
    (hk : ∀ v, Walks ctx (k v) o') :
    Walks ctx (do let value ← asOperand ctx operandSpan ty (← y); k value) (o ++ o') :=
  hx.bind fun lowered => silent_bind (asOperand_silent ctx operandSpan ty lowered) hk

lemma operand_silent (hx : Walks ctx y o) {operandSpan : Span} {ty : Nat} {k : Value → LowerM β}
    (hk : ∀ v, Silent (k v)) :
    Walks ctx (do
      let value ← asOperand ctx operandSpan ty (← y)
      locate span node
      k value) o := by
  simpa using hx.operand fun v => silent ((Silent.locate span node).bind fun _ => hk v)

lemma at_node_silent (hx : Walks ctx y o) {k : Option Value → LowerM β} (hk : ∀ v, Silent (k v)) :
    Walks ctx (do let value ← y; locate span node; k value) o := by
  simpa using hx.at_node span node fun v => silent (hk v)

end Walks

lemma bindLocal_walks (var : Local) (value : Option Value) :
    Walks ctx (bindLocal ctx var value) (declare var done) := by
  refine .silent_bind (chooseBinding_silent ctx var value) fun binding => ?_
  rintro s _ _ ⟨⟩
  exact ⟨.declare binding (.done _), rfl, suffix_cons ..⟩

lemma namesLocal_strayReport (var : Local) : namesLocal (strayReport ctx var span) = true := by
  have hfirst : "`".toList = ['`'] := rfl
  have hlist (l m : List Char) : (("`".toList ++ l) ++ m).head? = some '`' := by
    rw [hfirst]
    simp only [cons_append, head?_cons]
  have happend : (unboundMessage ctx var).toList =
      ("`".toList ++ (ctx.localName var).toList) ++ "` is not bound at this point".toList := by
    unfold unboundMessage
    rw [String.toList_append, String.toList_append]
  have hhead : (unboundMessage ctx var).toList.head? = some '`' := happend ▸ hlist _ _
  unfold namesLocal strayReport
  rw [hhead]
  rfl

/-- A use of a local; what is done with a binding is not seen. -/
lemma lookup_walks {k : Option Binding → LowerM β} (var : Local) (rest : LowerM β)
    (hfound : ∀ binding, Silent (k (some binding)))
    (hstray : k none = report .unboundIdentifier span (unboundMessage ctx var) >>= fun _ => rest)
    (hrest : Silent rest) : Walks ctx (lookup var >>= k) (use var span done) := by
  intro s a s' h
  obtain ⟨held, s1, hlookup, hk⟩ := bind_ok_iff.mp h
  cases hlookup
  have hnoted (s1 : LowerState) (hon : Continues (s.noted (.used var (s.scopes.lookup var))) s1) :
      Continues s s1 := ⟨hon.1, (suffix_cons ..).trans hon.2⟩
  cases hheld : s.scopes.lookup var with
  | some binding =>
    rw [hheld] at hk
    obtain ⟨hview, hon⟩ := hfound binding hk
    refine ⟨.use ?_, hnoted s' (hheld ▸ hon)⟩
    rw [hview]
    simp only [viewOf, LowerState.noted, hheld, Option.isSome_some, if_true, append_nil]
    exact .done _
  | none =>
    rw [hheld, hstray] at hk
    obtain ⟨_, s2, hreport, hk⟩ := bind_ok_iff.mp hk
    cases hreport
    obtain ⟨hview, hon⟩ := hrest hk
    refine ⟨.use ?_, hnoted s' (hheld ▸ hon)⟩
    have hlocal : namesLocal ⟨.unboundIdentifier, span, unboundMessage ctx var⟩ = true :=
      namesLocal_strayReport span var
    rw [hview]
    simp [viewOf, LowerState.noted, hheld, hlocal, strayReport]
    exact .done _

lemma readLocal_walks (ty : Nat) (var : Local) :
    Walks ctx (readLocal ctx span ty var) (use var span done) := by
  refine lookup_walks span var (undefOf ctx ty) (fun binding => ?_) rfl (undefOf_silent ctx ty)
  cases binding with
  | slot address ty => exact (Silent.insert _).map
  | _ => exact .pure _

lemma assignLocal_walks (var : Local) (value : Option Value) :
    Walks ctx (assignLocal ctx span var value) (use var span done) := by
  refine lookup_walks span var (pure ()) (fun binding => ?_) rfl (.pure _)
  cases binding with
  | slot address ty =>
    cases value with
    | some value => exact .emit _
    | none => exact .pure _
  | value held => exact .inconsistent _ _
  | unit => exact .pure _

lemma Walks.scope (hx : Walks ctx x o) (hk : ∀ a, Walks ctx (k a) o') :
    Walks ctx (do enterScope; let a ← x; leaveScope; k a) (scope o o') := by
  intro s b s' h
  obtain ⟨_, s1, henter, h⟩ := bind_ok_iff.mp h
  obtain ⟨a, s2, hrun, h⟩ := bind_ok_iff.mp h
  obtain ⟨_, s3, hleave, h⟩ := bind_ok_iff.mp h
  cases henter
  cases hleave
  obtain ⟨hwalks, hon⟩ := hx hrun
  obtain ⟨hwalks', hon'⟩ := hk a h
  exact ⟨.scope hwalks hwalks', Continues.trans hon hon'⟩

lemma block_walks {x : LowerM Unit} (hx : Walks ctx x o) (hy : Walks ctx y o') :
    Walks ctx (do enterScope; x; let value ← y; leaveScope; return value) (scope (o ++ o') done) := by
  have h := (hx.bind fun _ => hy).scope fun value => .silent (.pure value)
  simpa only [bind_assoc] using h

lemma pattern_walks (subject : Option Value) (pattern : Pattern) :
    Walks ctx (do
      let test ← testPattern ctx span subject pattern
      let next ← branchOnTest test
      bindPattern ctx subject pattern
      return next) (.ofPattern pattern) := by
  have hsubject : Silent (subjectValue span subject) := subjectValue_silent span subject
  have hbind (var : Local) (value : Option Value) : Walks ctx (bindLocal ctx var value) _ :=
    bindLocal_walks var value
  have hpayload (index : Nat) (var : Local) :
      Walks ctx (bindPayload ctx subject index var) (declare var done) := by
    unfold bindPayload
    split
    · exact .silent_bind (.pure _) (hbind var)
    · exact .silent_bind (.pure _) (hbind var)
    · exact .silent_bind (Silent.insert _).map (hbind var)
  have htested {p : Pattern} {o : Outline} (htest : Silent (testPattern ctx span subject p))
      (hbinds : Walks ctx (bindPattern ctx subject p) o) : Walks ctx (do
        let test ← testPattern ctx span subject p
        let next ← branchOnTest test
        bindPattern ctx subject p
        return next) o :=
    .silent_bind htest fun test => .silent_bind (branchOnTest_silent test) fun _ =>
      hbinds.bind_silent fun _ => .pure _
  cases pattern with
  | wildcard => exact htested (.pure _) (.silent (.pure _))
  | bind var =>
    refine ((hbind var subject).bind_silent fun _ => .pure none).bind_silent fun test => ?_
    exact (branchOnTest_silent test).bind fun _ => (Silent.pure _).bind fun _ => .pure _
  | int value | bool value =>
    exact htested (hsubject.bind fun _ => (Silent.insert _).bind fun _ => (Silent.insert _).map)
      (.silent (.pure _))
  | ok payload =>
    refine htested (hsubject.bind fun _ => (Silent.insert _).bind fun _ =>
      (Silent.insert _).map) ?_
    cases payload with
    | none => exact .silent (.pure _)
    | some var => exact hpayload _ var
  | err payload =>
    refine htested (hsubject.bind fun _ => (Silent.insert _).map) ?_
    cases payload with
    | none => exact .silent (.pure _)
    | some var => exact hpayload _ var

lemma testPattern_isNone {s s' : LowerState} {subject test : Option Value} {pattern : Pattern}
    (h : testPattern ctx span subject pattern s = .ok test s') :
    test.isNone = pattern.isIrrefutable := by
  have hlast {y : LowerM Value} {s1 : LowerState} (h : (some <$> y) s1 = .ok test s') :
      test.isNone = false := by
    obtain ⟨v, -, rfl⟩ := map_ok_iff.mp h
    rfl
  cases pattern with
  | wildcard =>
    cases h
    rfl
  | bind var =>
    obtain ⟨_, s1, -, h⟩ := bind_ok_iff.mp h
    cases h
    rfl
  | int value | bool value | ok var =>
    obtain ⟨_, s1, -, h⟩ := bind_ok_iff.mp h
    obtain ⟨_, s2, -, h⟩ := bind_ok_iff.mp h
    exact hlast h
  | err var =>
    obtain ⟨_, s1, -, h⟩ := bind_ok_iff.mp h
    exact hlast h

/-- There is a next arm exactly if the pattern may fail. -/
lemma pattern_isNone {s s' : LowerState} {subject : Option Value} {pattern : Pattern}
    {next : Option Ir.Block} (h : (do
      let test ← testPattern ctx span subject pattern
      let next ← branchOnTest test
      bindPattern ctx subject pattern
      return next : LowerM _) s = .ok next s') : next.isNone = pattern.isIrrefutable := by
  obtain ⟨test, s1, htest, h⟩ := bind_ok_iff.mp h
  obtain ⟨next', s2, hbranch, h⟩ := bind_ok_iff.mp h
  obtain ⟨_, s3, -, h⟩ := bind_ok_iff.mp h
  obtain ⟨rfl, -⟩ := pure_ok_iff.mp h
  rw [← testPattern_isNone span htest]
  cases test with
  | none =>
    cases hbranch
    rfl
  | some test =>
    obtain ⟨arm, s4, -, hbranch⟩ := bind_ok_iff.mp hbranch
    obtain ⟨block, s5, -, hbranch⟩ := bind_ok_iff.mp hbranch
    obtain ⟨_, s6, -, hbranch⟩ := bind_ok_iff.mp hbranch
    obtain ⟨_, s7, -, hbranch⟩ := bind_ok_iff.mp hbranch
    obtain ⟨rfl, -⟩ := pure_ok_iff.mp hbranch
    rfl

lemma arm_walks (hy : Walks ctx y o) {subject : Option Value} (pattern : Pattern)
    {rest : LowerM (List ArmEnd × Bool)} (hrest : Walks ctx rest o') :
    Walks ctx (armSteps ctx span node subject pattern y rest)
      (scope (.ofPattern pattern ++ o) (if pattern.isIrrefutable then done else o')) := by
  -- how many arms follow depends on whether there is a next arm, so the pattern comes first
  have hopen (s : LowerState) (k : Option Ir.Block → LowerM (List ArmEnd × Bool)) : (do
      let test ← testPattern ctx span subject pattern
      let next ← branchOnTest test
      bindPattern ctx subject pattern
      k next) s = ((do
        let test ← testPattern ctx span subject pattern
        let next ← branchOnTest test
        bindPattern ctx subject pattern
        return next) >>= k) s := by
    simp only [bind_assoc, pure_bind]
  intro s result s' h
  obtain ⟨_, s1, hlocate, h⟩ := bind_ok_iff.mp h
  obtain ⟨_, s2, henter, h⟩ := bind_ok_iff.mp h
  obtain ⟨next, s3, hpattern, h⟩ := bind_ok_iff.mp ((hopen s2 _).symm.trans h)
  obtain ⟨value, s4, hvalue, h⟩ := bind_ok_iff.mp h
  obtain ⟨_, s5, hleave, h⟩ := bind_ok_iff.mp h
  obtain ⟨hwalks, hon⟩ := pattern_walks span subject pattern hpattern
  obtain ⟨hwalks1, hon1⟩ := hy hvalue
  cases hlocate
  cases henter
  cases hleave
  have hends (armEnd : Option ArmEnd) :
      Walks ctx (nextArms rest next armEnd) (if pattern.isIrrefutable then done else o') := by
    rw [← pattern_isNone span hpattern]
    cases next with
    | none => exact .silent (.pure _)
    | some next => exact .silent_bind (Silent.build _) fun _ => hrest.bind_silent fun _ => .pure _
  obtain ⟨hwalks2, hon2⟩ := (Walks.silent_bind (finishArm_silent value) hends) h
  exact ⟨.scope (hwalks.append hwalks1) hwalks2, Continues.trans (hon.trans hon1) hon2⟩

/-- The body of a loop; what stands behind the loop sees the loops around it. -/
lemma turn_walks (hy : Walks ctx y o) (blocks : LoopBlocks) {k : LowerM Unit}
    (hk : Walks ctx k o') :
    Walks ctx (do
      enterLoop blocks
      Functor.discard y
      locate span node
      emit (.br blocks.next)
      leaveLoop
      k) (o ++ o') := by
  intro s u s' h
  obtain ⟨_, s1, henter, h⟩ := bind_ok_iff.mp h
  obtain ⟨_, s2, hbody, h⟩ := bind_ok_iff.mp h
  obtain ⟨_, s3, hlocate, h⟩ := bind_ok_iff.mp h
  obtain ⟨_, s4, hemit, h⟩ := bind_ok_iff.mp h
  obtain ⟨_, s5, hleave, h⟩ := bind_ok_iff.mp h
  obtain ⟨hwalks, hloops, hnotes⟩ := hy.discard hbody
  obtain ⟨hview, hloops1, hnotes1⟩ := Silent.emit _ hemit
  obtain ⟨hwalks', hloops', hnotes'⟩ := hk h
  cases henter
  cases hlocate
  cases hleave
  refine ⟨hwalks.append ?_, ?_, (hnotes.trans hnotes1).trans hnotes'⟩
  · exact hview ▸ hwalks'
  · rw [hloops']
    change s4.loops.tail = _
    rw [hloops1]
    rw [hloops]
    rfl

lemma args_walks (hy : Walks ctx y o) {rest : LowerM (List Value)} (hrest : Walks ctx rest o')
    (ty : Nat) : Walks ctx (do
      let value ← match ← y with
        | some value => pure (some value)
        | none => undefOf ctx ty
      return value.toList ++ (← rest)) (o ++ o') := by
  have hcons (value : Option Value) : Walks ctx (do return value.toList ++ (← rest)) o' :=
    hrest.bind_silent fun _ => .pure _
  refine hy.bind fun value => ?_
  cases value with
  | some value => exact hcons _
  | none => exact .silent_bind (undefOf_silent ctx ty) hcons

lemma inits_walks (hy : Walks ctx y o) {rest : LowerM Unit} (agg : Nat) (record : Value) (index : Nat)
    (hrest : Walks ctx rest o') : Walks ctx (do
      match ← y with
      | none => pure ()
      | some value => do
        locate span node
        storeField agg record index value
      rest) (o ++ o') := by
  refine hy.bind fun value => ?_
  cases value with
  | none => exact hrest
  | some value =>
    exact .silent_bind (.locate span node) fun _ =>
      .silent_bind (storeField_silent agg record index value) fun _ => hrest

lemma loopRest_walks (hy : Walks ctx y o) (blocks : LoopBlocks) : Walks ctx (do
      enterLoop blocks
      Functor.discard y
      locate span node
      emit (.br blocks.next)
      leaveLoop
      switchTo blocks.exit) o := by
  have h := turn_walks span node hy blocks (.silent (Silent.build fun b => ((), b.switchTo blocks.exit)))
  rwa [Outline.append_done] at h

end Steps

variable {ctx : Context}

mutual

/-- Lowering a block walks along its outline. -/
theorem lowerBlock_walks : ∀ block : Core.Block, Walks ctx (lowerBlock ctx block) (outlineOfBlock block)
  | ⟨_, _, stmts, none⟩ => by
    have h := block_walks (lowerStmts_walks stmts) (.silent (.pure none))
    rwa [Outline.append_done] at h
  | ⟨_, _, stmts, some tail⟩ => block_walks (lowerStmts_walks stmts) (lowerExpr_walks tail)

theorem lowerStmts_walks : ∀ stmts : List Core.Stmt, Walks ctx (lowerStmts ctx stmts) (outlineOfStmts stmts)
  | [] => .silent (.pure _)
  | stmt :: rest => (lowerStmt_walks stmt).bind fun _ => lowerStmts_walks rest

theorem lowerStmt_walks : ∀ stmt : Core.Stmt, Walks ctx (lowerStmt ctx stmt) (outlineOfStmt stmt)
  | ⟨node, span, .letVar var none⟩ =>
    .silent_bind (.pure none) fun _ => .silent_bind (.locate span node) fun _ => bindLocal_walks var _
  | ⟨node, span, .letVar var (some init)⟩ =>
    (lowerExpr_walks init).at_node span node fun _ => bindLocal_walks var _
  | ⟨node, span, .assign (.localVar var) value⟩ =>
    (lowerExpr_walks value).at_node span node fun _ => assignLocal_walks span var _
  | ⟨node, span, .assign (.globalVar name) value⟩ =>
    (lowerExpr_walks value).at_node_silent span node fun _ => assignGlobal_silent ctx span name _
  | ⟨node, span, .assign (.field base index) value⟩ =>
    (lowerExpr_walks base).operand fun _ => (lowerExpr_walks value).at_node_silent span node fun _ =>
      assignField_silent ctx span _ _ index _
  | ⟨_, _, .expr value⟩ => (lowerExpr_walks value).discard
  | ⟨node, span, .ret none⟩ => .silent <| (Silent.pure none).bind fun _ =>
    (Silent.locate span node).bind fun _ => (emitReturn_silent _).bind fun _ => enterDeadBlock_silent
  | ⟨node, span, .ret (some value)⟩ => (lowerExpr_walks value).at_node_silent span node fun _ =>
    (emitReturn_silent _).bind fun _ => enterDeadBlock_silent
  | ⟨node, span, .breakLoop⟩ =>
    .silent ((Silent.locate span node).bind fun _ => jump_silent span false)
  | ⟨node, span, .continueLoop⟩ =>
    .silent ((Silent.locate span node).bind fun _ => jump_silent span true)
  | ⟨node, span, .loop none body none⟩ =>
    .silent_bind (.locate span node) fun _ => .silent_bind (openLoop_silent _ _) fun blocks =>
      loopRest_walks span node (lowerBlock_walks body) blocks
  | ⟨node, span, .loop none body (some step)⟩ =>
    .silent_bind (.locate span node) fun _ => .silent_bind (openLoop_silent _ _) fun blocks =>
      turn_walks span node (lowerBlock_walks body) blocks <|
        .silent_bind (Silent.build _) fun _ => (lowerBlock_walks step).discard.bind_silent fun _ =>
          (Silent.locate span node).bind fun _ => (Silent.emit _).bind fun _ => Silent.build _
  | ⟨node, span, .loop (some cond) body none⟩ =>
    .silent_bind (.locate span node) fun _ => .silent_bind (openLoop_silent _ _) fun blocks =>
      .silent_bind (Silent.build _) fun _ => (lowerExpr_walks cond).operand fun _ =>
        .silent_bind (.locate span node) fun _ => .silent_bind (Silent.emit _) fun _ =>
          loopRest_walks span node (lowerBlock_walks body) blocks
  | ⟨node, span, .loop (some cond) body (some step)⟩ =>
    .silent_bind (.locate span node) fun _ => .silent_bind (openLoop_silent _ _) fun blocks =>
      .silent_bind (Silent.build _) fun _ => (lowerExpr_walks cond).operand fun _ =>
        .silent_bind (.locate span node) fun _ => .silent_bind (Silent.emit _) fun _ =>
          turn_walks span node (lowerBlock_walks body) blocks <|
            .silent_bind (Silent.build _) fun _ => (lowerBlock_walks step).discard.bind_silent fun _ =>
              (Silent.locate span node).bind fun _ => (Silent.emit _).bind fun _ => Silent.build _

theorem lowerExpr_walks : ∀ expr : Core.Expr, Walks ctx (lowerExpr ctx expr) (outlineOfExpr expr)
  | ⟨node, span, _, .literal value⟩ =>
    .silent ((Silent.locate span node).bind fun _ => lowerLiteral_silent value)
  | ⟨node, span, ty, .localVar var⟩ =>
    .silent_bind (.locate span node) fun _ => readLocal_walks span ty var
  | ⟨node, span, ty, .globalVar name⟩ =>
    .silent ((Silent.locate span node).bind fun _ => readGlobal_silent ctx span ty name)
  | ⟨node, span, _, .binary op lhs rhs⟩ =>
    (lowerExpr_walks lhs).operand fun _ => (lowerExpr_walks rhs).operand_silent span node fun _ =>
      (lowerBinary_silent ctx span op _ _ _).map
  | ⟨node, span, _, .unary op operand⟩ =>
    (lowerExpr_walks operand).operand_silent span node fun _ => (lowerUnary_silent ctx span op _ _).map
  | ⟨node, span, _, .cast operand⟩ =>
    (lowerExpr_walks operand).operand_silent span node fun _ => (convert_silent ctx span _ _ _).map
  | ⟨node, span, ty, .call callee args⟩ =>
    (lowerArgs_walks args).bind_silent fun values =>
      (Silent.locate span node).bind fun _ => lowerCall_silent ctx ty callee values
  | ⟨node, span, ty, .field base index⟩ =>
    (lowerExpr_walks base).operand_silent span node fun _ =>
      (layoutOf_silent ctx span _).bind fun _ => readField_silent ctx ty _ _ index
  | ⟨node, span, ty, .data inits⟩ =>
    .silent_bind (.locate span node) fun _ => .silent_bind (layoutOf_silent ctx span ty) fun agg =>
      .silent_bind (.insert _) fun record =>
        (lowerInits_walks inits span node agg record).bind_silent fun _ => .pure _
  | ⟨node, span, ty, .ok value⟩ =>
    (lowerExpr_walks value).at_node_silent span node fun _ => (makeResult_silent ctx span ty false _).map
  | ⟨node, span, ty, .err value⟩ =>
    (lowerExpr_walks value).at_node_silent span node fun _ => (makeResult_silent ctx span ty true _).map
  | ⟨node, span, ty, .ifElse cond body otherwise⟩ =>
    (lowerExpr_walks cond).operand fun _ => .silent_bind (.locate span node) fun _ =>
      .silent_bind (Silent.build _) fun _ => .silent_bind (Silent.build _) fun _ =>
        .silent_bind (Silent.emit _) fun _ => .silent_bind (Silent.build _) fun _ =>
          (lowerBlock_walks body).bind fun value => .silent_bind (finishArm_silent value) fun _ =>
            .silent_bind (Silent.build _) fun _ => (lowerBlock_walks otherwise).bind_silent fun value =>
              (finishArm_silent value).bind fun _ => mergeArms_silent ctx span node ty _ _
  | ⟨node, span, ty, .matchOn scrutinee arms⟩ => (lowerExpr_walks scrutinee).bind fun _ =>
    (lowerArms_walks arms).bind_silent fun result => by
      have hmerge := mergeArms_silent ctx span node ty "match.merge" result.1
      dsimp only
      split
      · exact (Silent.locate span node).bind fun _ => (Silent.emit _).bind fun _ => hmerge
      · exact hmerge
  | ⟨_, _, _, .block body⟩ => lowerBlock_walks body
  | ⟨node, span, _, .propagate value⟩ =>
    (lowerExpr_walks value).operand_silent span node fun _ => propagate_silent ctx span _ _

theorem lowerArgs_walks : ∀ args : List Core.Expr, Walks ctx (lowerArgs ctx args) (outlineOfArgs args)
  | [] => .silent (.pure _)
  | arg :: rest => args_walks (lowerExpr_walks arg) (lowerArgs_walks rest) arg.ty

theorem lowerInits_walks : ∀ (inits : List Core.FieldInit) (span : Span) (node agg : Nat)
    (record : Value), Walks ctx (lowerInits ctx span node agg record inits) (outlineOfInits inits)
  | [], _, _, _, _ => .silent (.pure _)
  | ⟨index, value⟩ :: rest, span, node, agg, record =>
    inits_walks span node (lowerExpr_walks value) agg record index
      (lowerInits_walks rest span node agg record)

theorem lowerArms_walks : ∀ (arms : List Core.Arm) {subject : Option Value},
    Walks ctx (lowerArms ctx subject arms) (outlineOfArms arms)
  | [], _ => .silent (.pure _)
  | ⟨pattern, body, span⟩ :: rest, _ =>
    arm_walks span body.node (lowerExpr_walks body) pattern (lowerArms_walks rest)

end

/-! ### What is seen along an outline -/

namespace WalksAlong

variable {o : Outline} {v v' : View}

lemma adds (h : WalksAlong ctx o v v') : Adds o.own v.scopes v'.scopes := by
  induction h with
  | done => exact .refl _
  | declare binding _ ih => exact (Adds.bind _ _ binding).trans ih
  | use _ ih => exact ih
  | scope _ _ ihinner ih =>
    have h := ihinner.pop.trans ih
    rwa [append_nil] at h

/-- At the end of a scope its locals are hidden, and the others are held as before. -/
lemma lookup_eq (h : WalksAlong ctx o v v') : ∀ var, var ∉ o.own →
    v'.scopes.lookup var = if var ∈ o.declares then none else v.scopes.lookup var := by
  induction h with
  | done => exact fun _ _ => rfl
  | @declare v _ other rest binding hrest ih =>
    intro var hvar
    obtain ⟨hown, hne⟩ := not_or.mp (mt mem_append.mpr hvar)
    rw [mem_singleton] at hne
    simp [ih var hown, Adds.lookup_bind, Outline.declares, hne]
  | use _ ih => exact ih
  | @scope v v1 _ inner rest hinner _ ihinner ih =>
    intro var hvar
    have hleave : v1.scopes.pop.lookup var =
        if var ∈ inner.declares then none else v.scopes.lookup var := by
      rw [hinner.adds.lookup_leave]
      by_cases hown : var ∈ inner.own
      · rw [if_pos hown, if_pos (Outline.own_subset hown)]
      · rw [if_neg hown, ihinner var hown]
        rfl
    rw [ih var hvar, hleave, Outline.declares]
    by_cases hrest : var ∈ rest.declares <;> simp [hrest]

lemma lookup_leave {v1 : View} (h : WalksAlong ctx o ⟨v.scopes.push, v.notes, v.reports⟩ v1)
    (var : Local) :
    v1.scopes.pop.lookup var = if var ∈ o.declares then none else v.scopes.lookup var := by
  have hwalk : WalksAlong ctx (.scope o .done) v ⟨v1.scopes.pop, v1.notes, v1.reports⟩ :=
    .scope h (.done _)
  simpa [Outline.declares] using hwalk.lookup_eq var (by simp [Outline.own])

lemma reports_eq (h : WalksAlong ctx o v v') :
    ∃ strays, v'.reports = v.reports ++ strays ∧ ∀ report ∈ strays, report.kind = .unboundIdentifier := by
  induction h with
  | done => exact ⟨[], by simp⟩
  | declare _ _ ih => exact ih
  | @use v _ var span _ _ ih =>
    obtain ⟨strays, hreports, hkind⟩ := ih
    refine ⟨(if (v.scopes.lookup var).isSome then [] else [strayReport ctx var span]) ++ strays,
      by rw [hreports, append_assoc], fun report hmem => ?_⟩
    rcases mem_append.mp hmem with hmem | hmem
    · split at hmem
      · cases hmem
      · rw [mem_singleton.mp hmem]
        rfl
    · exact hkind report hmem
  | scope _ _ ihinner ih =>
    obtain ⟨strays, hreports, hkind⟩ := ihinner
    obtain ⟨more, hmore, hkind'⟩ := ih
    exact ⟨strays ++ more, by rw [hmore, hreports, append_assoc],
      forall_mem_append.mpr ⟨hkind, hkind'⟩⟩

/-- If no local is declared twice, the visible locals are those in scope, each held as it was bound.
The induction carries how the locals declared so far are held. -/
lemma exact_of_nodup (h : WalksAlong ctx o v v') : ∀ {visible : List Local} {held : Local → Binding},
    (∀ var, v.scopes.lookup var = if var ∈ visible then some (held var) else none) →
    o.declares.Nodup → (∀ var ∈ o.declares, var ∉ visible) →
      v'.reports = v.reports ++ (o.strays visible).map (fun use => strayReport ctx use.1 use.2) ∧
      ∃ held', (∀ var, var ∉ o.declares → held' var = held var) ∧
        v'.notes = (o.trace held' visible).reverse ++ v.notes := by
  induction h with
  | done => exact fun {visible held} _ _ _ => ⟨by simp [Outline.strays], held, fun _ _ => rfl, rfl⟩
  | @declare v _ var rest binding _ ih =>
    intro visible held hlookup hnodup hfresh
    obtain ⟨hvar, hnodup⟩ := nodup_cons.mp hnodup
    obtain ⟨hnew, hfresh⟩ := forall_mem_cons.mp hfresh
    obtain ⟨hreports, held', hheld, hnotes⟩ := @ih (var :: visible) (Function.update held var binding)
      (fun other => by
        rw [Adds.lookup_bind, hlookup]
        by_cases heq : other = var
        · simp [heq]
        · simp [heq]) hnodup fun other hother => by
          rw [mem_cons, not_or]
          exact ⟨fun heq => hvar (heq ▸ hother), hfresh other hother⟩
    refine ⟨hreports, held', fun other hother => ?_, ?_⟩
    · obtain ⟨hne, hother⟩ := not_or.mp (mt mem_cons.mpr hother)
      rw [hheld other hother, Function.update_of_ne hne]
    · rw [hnotes, Outline.trace, hheld var hvar, Function.update_self]
      simp
  | @use v _ var span rest _ ih =>
    intro visible held hlookup hnodup hfresh
    obtain ⟨hreports, held', hheld, hnotes⟩ := ih hlookup hnodup hfresh
    refine ⟨?_, held', hheld, ?_⟩
    · rw [hreports, Outline.strays, hlookup]
      by_cases hmem : var ∈ visible <;> simp [hmem]
    · rw [hnotes, Outline.trace, hlookup]
      by_cases hmem : var ∈ visible
      · have heq : held' var = held var := hheld var fun hdecl => hfresh var hdecl hmem
        simp [hmem, heq]
      · simp [hmem]
  | @scope v v1 _ inner rest hinner _ ihinner ih =>
    intro visible held hlookup hnodup hfresh
    obtain ⟨hnodup1, hnodup2, hdisjoint⟩ := nodup_append.mp hnodup
    obtain ⟨hfresh1, hfresh2⟩ := forall_mem_append.mp hfresh
    obtain ⟨hreports1, held1, hheld1, hnotes1⟩ := ihinner hlookup hnodup1 hfresh1
    have hleave (var : Local) : v1.scopes.pop.lookup var =
        if var ∈ visible then some (held1 var) else none := by
      rw [hinner.lookup_leave, hlookup]
      by_cases hdecl : var ∈ inner.declares
      · rw [if_pos hdecl, if_neg (hfresh1 var hdecl)]
      · rw [if_neg hdecl, hheld1 var hdecl]
    obtain ⟨hreports, held', hheld, hnotes⟩ := ih hleave hnodup2 hfresh2
    have htrace : inner.trace held1 visible = inner.trace held' visible := by
      refine Outline.trace_congr fun var hvar => (hheld var fun hdecl => ?_).symm
      rcases hvar with hvar | hvar
      · exact hfresh2 var hdecl hvar
      · exact hdisjoint var hvar var hdecl rfl
    refine ⟨?_, held', fun var hvar => ?_, ?_⟩
    · rw [hreports, hreports1, Outline.strays, map_append, append_assoc]
    · obtain ⟨hvar1, hvar2⟩ := not_or.mp (mt mem_append.mpr hvar)
      rw [hheld var hvar2, hheld1 var hvar1]
    · rw [hnotes, hnotes1, htrace, Outline.trace, reverse_append, append_assoc]

end WalksAlong

/-! ### Whole bodies -/

lemma length_of_mapM {α γ : Type} {g : γ → LowerM α} : ∀ {cs : List γ} {s s' : LowerState}
    {values : List α}, cs.mapM g s = .ok values s' → values.length = cs.length
  | [], _, _, _, h => by
    obtain ⟨rfl, -⟩ := pure_ok_iff.mp h
    rfl
  | c :: cs, _, _, _, h => by
    rw [mapM_cons] at h
    obtain ⟨value, _, -, h⟩ := bind_ok_iff.mp h
    obtain ⟨values, _, hvalues, h⟩ := bind_ok_iff.mp h
    obtain ⟨rfl, -⟩ := pure_ok_iff.mp h
    exact congrArg Nat.succ (length_of_mapM hvalues)

lemma bindLocals_walks : ∀ {params : List Local} {values : List (Option Value)},
    values.length = params.length →
      Walks ctx ((params.zip values).forM fun (var, value) => bindLocal ctx var value)
        (params.foldr declare done)
  | [], [], _ => .silent (.pure _)
  | var :: _, value :: _, h =>
    (bindLocal_walks var value).bind fun _ => bindLocals_walks (Nat.succ.inj h)

lemma declareParams_walks : Walks ctx (declareParams ctx) (ctx.body.params.foldr declare done) := by
  intro s u s' h
  obtain ⟨values, s1, hvalues, h⟩ := bind_ok_iff.mp h
  obtain ⟨hview, hon⟩ : Unseen s s1 := by
    refine Silent.mapM (fun var => ?_) _ hvalues
    split
    · exact Silent.pure _
    · exact (Silent.build _).map
  obtain ⟨hwalks, hon'⟩ := bindLocals_walks (length_of_mapM hvalues) h
  exact ⟨hview ▸ hwalks, hon.trans hon'⟩

/-- The end of a body is not seen, but for the report that its value is missing. -/
lemma finishBody_view {tail : Option Value} {s s' : LowerState} {u : Unit}
    (h : finishBody ctx tail s = .ok u s') : Continues s s' ∧ ∃ last, viewOf s' =
      { viewOf s with reports := (viewOf s).reports ++ last } ∧
      last.map Report.kind = if s.builder.isReachable = true ∧ s.builder.function.ret ≠ .void ∧
        tail = none then [.missingReturn] else [] := by
  obtain ⟨_, s1, hlocate, h⟩ := bind_ok_iff.mp h
  obtain ⟨answer, s2, hasked, h⟩ := bind_ok_iff.mp h
  obtain ⟨hanswer, hret, hview, hon⟩ : answer = s.builder.isReachable ∧
      s2.builder.function.ret = s.builder.function.ret ∧ Unseen s s2 := by
    cases hlocate
    cases hasked
    exact ⟨rfl, rfl, rfl, rfl, suffix_cons ..⟩
  have hsilent {x : LowerM Unit} (hx : Silent x) (hrun : x s2 = .ok u s') : Continues s s' ∧
      viewOf s' = { viewOf s with reports := (viewOf s).reports ++ [] } := by
    rw [(hx hrun).1, hview, append_nil]
    exact ⟨hon.trans (hx hrun).2, rfl⟩
  have hmissing {message : String}
      (hrun : (do report .missingReturn ctx.body.span message; emitReturn none) s2 = .ok u s') :
      Continues s s' ∧ ∃ report : Report, report.kind = .missingReturn ∧
        viewOf s' = { viewOf s with reports := (viewOf s).reports ++ [report] } := by
    obtain ⟨_, s3, hreport, hrun⟩ := bind_ok_iff.mp hrun
    cases hreport
    refine ⟨hon.trans (emitReturn_silent none hrun).2,
      ⟨.missingReturn, ctx.body.span, message⟩, rfl, ?_⟩
    rw [(emitReturn_silent none hrun).1, ← hview]
    simp [viewOf]
  rw [← hanswer, ← hret]
  cases answer with
  | false =>
    obtain ⟨hon, hlast⟩ := hsilent sealDeadBlock_silent h
    exact ⟨hon, [], hlast, rfl⟩
  | true =>
    replace h := get_bind_run.symm.trans h
    generalize s2.builder.function.ret = ret at h ⊢
    split at h
    · obtain ⟨hon, hlast⟩ := hsilent (Silent.emit _) h
      exact ⟨hon, [], hlast, by simp⟩
    · obtain ⟨hon, hlast⟩ := hsilent (Silent.emit _) h
      exact ⟨hon, [], hlast, by simp⟩
    · next hvoid _ _ =>
      obtain ⟨hon, report, hreport, hlast⟩ := hmissing h
      refine ⟨hon, [report], hlast, ?_⟩
      rw [if_pos ⟨rfl, hvoid, rfl⟩, map_singleton, hreport]

/-- A whole body: its parameters and its block, up to the end, and then the end. -/
lemma lowerWhole_walks {s s' : LowerState} {u : Unit} (h : lowerWhole ctx s = .ok u s') :
    ∃ tail s1, (do enterScope; declareParams ctx; lowerBlock ctx ctx.body.block) s = .ok tail s1 ∧
      ∃ s2, finishBody ctx tail s1 = .ok () s2 ∧ s' = { s2 with scopes := s2.scopes.pop } ∧
        WalksAlong ctx (outlineOfBody ctx.body) (viewOf s)
          (viewOf { s1 with scopes := s1.scopes.pop }) := by
  have hparams (params : List Local) (o : Outline) :
      params.foldr declare done ++ o = params.foldr declare o := by
    induction params with
    | nil => rfl
    | cons var params ih => exact congrArg (declare var) ih
  have hbody : Walks ctx (do declareParams ctx; lowerBlock ctx ctx.body.block)
      (ctx.body.params.foldr declare (outlineOfBlock ctx.body.block)) := by
    rw [← hparams]
    exact declareParams_walks.bind fun _ => lowerBlock_walks _
  obtain ⟨_, s0, henter, h⟩ := bind_ok_iff.mp h
  obtain ⟨_, s1, hdeclare, h⟩ := bind_ok_iff.mp h
  obtain ⟨tail, s2, hblock, h⟩ := bind_ok_iff.mp h
  obtain ⟨_, s3, hfinish, hleave⟩ := bind_ok_iff.mp h
  cases henter
  cases hleave
  have hrun : (do declareParams ctx; lowerBlock ctx ctx.body.block) _ = .ok tail s2 :=
    bind_ok_iff.mpr ⟨_, s1, hdeclare, hblock⟩
  exact ⟨tail, s2, bind_ok_iff.mpr ⟨_, _, rfl, hrun⟩, s3, hfinish, rfl,
    .scope (hbody hrun).1 (.done _)⟩

/-- The state in which lowering a body starts. -/
def startOf (env : Environment) (body : Core.Body) : LowerState :=
  { builder := Builder.start body.name (env.ty body.ret) body.span body.node }

lemma lowerBody_run {env : Environment} {body : Core.Body} {f : Function}
    (h : (lowerBody env body).function = .ok f) :
    ∃ s, lowerWhole ⟨env, body⟩ (startOf env body) = .ok () s ∧ s.builder.function = f ∧
      s.reports = (lowerBody env body).reports := by
  unfold lowerBody at h ⊢
  dsimp only at h ⊢
  split at h
  · next s heq => exact ⟨s, heq, Except.ok.inj h, rfl⟩
  · cases h

lemma own_outlineOfArms (arms : List Core.Arm) : (outlineOfArms arms).own = [] := by
  induction arms with
  | nil => rfl
  | cons arm rest ih =>
    obtain ⟨pattern, body, span⟩ := arm
    rw [outlineOfArms, Outline.own]
    split
    · rfl
    · exact ih

/-- Leaving a block or an arm restores the scopes and the loops around it. Only its own locals, which
are declared nowhere else, are no longer visible. -/
structure Restores (declared : List Local) (s s' : LowerState) : Prop where
  depth_eq : s'.scopes.depth = s.scopes.depth
  loops_eq : s'.loops = s.loops
  lookup_eq : ∀ var, s'.scopes.lookup var = if var ∈ declared then none else s.scopes.lookup var

lemma Walks.restores {α : Type} {x : LowerM α} {o : Outline} (hx : Walks ctx x o) (hown : o.own = [])
    {s s' : LowerState} {a : α} (h : x s = .ok a s') : Restores o.declares s s' where
  depth_eq := by
    have hframes := (hx h).1.adds.frames_eq
    change (viewOf s').scopes.frames.length = (viewOf s).scopes.frames.length
    rw [hframes]
    cases (viewOf s).scopes.frames <;> rfl
  loops_eq := (hx h).2.1
  lookup_eq var := (hx h).1.lookup_eq var (by simp [hown])

/-- The reports on locals are, in order, the uses outside of the scope of a declaration, and each use
in scope finds what its declaration has bound. -/
theorem strays_are_reported {env : Environment} {body : Core.Body} {f : Function}
    (hnodup : (outlineOfBody body).declares.Nodup) (h : (lowerBody env body).function = .ok f) :
    (lowerBody env body).reports.filter namesLocal =
      ((outlineOfBody body).strays []).map (fun use => strayReport ⟨env, body⟩ use.1 use.2) ∧
    (∃ s held, lowerWhole ⟨env, body⟩ (startOf env body) = .ok () s ∧
      s.notes.filter onLocal = ((outlineOfBody body).trace held []).reverse) ∧
    (∀ block s value s', lowerBlock ⟨env, body⟩ block s = .ok value s' →
      Restores (outlineOfBlock block).declares s s') ∧
    ∀ subject arms s ends s', lowerArms ⟨env, body⟩ subject arms s = .ok ends s' →
      Restores (outlineOfArms arms).declares s s' := by
  have hblock : ∀ block s value s', lowerBlock ⟨env, body⟩ block s = .ok value s' →
      Restores (outlineOfBlock block).declares s s' := by
    intro block s value s' hrun
    refine (lowerBlock_walks block).restores ?_ hrun
    obtain ⟨_, _, stmts, _ | tail⟩ := block <;> rfl
  have harms : ∀ subject arms s ends s', lowerArms ⟨env, body⟩ subject arms s = .ok ends s' →
      Restores (outlineOfArms arms).declares s s' := by
    intro subject arms s ends s' hrun
    exact (lowerArms_walks arms).restores (own_outlineOfArms arms) hrun
  obtain ⟨s, hrun, -, hreports⟩ := lowerBody_run h
  obtain ⟨tail, s1, -, s2, hfinish, rfl, hwalks⟩ := lowerWhole_walks hrun
  obtain ⟨-, last, hview, hlast⟩ := finishBody_view hfinish
  obtain ⟨hstrays, held, -, hnotes⟩ := @WalksAlong.exact_of_nodup _ _ _ _ hwalks []
    (fun _ => .unit) (fun _ => rfl) hnodup (by simp)
  refine ⟨?_, ⟨_, held, hrun, ?_⟩, hblock, harms⟩
  · have hlast : last.filter namesLocal = [] := by
      refine filter_eq_nil_iff.mpr fun report hmem => ?_
      have hkind : report.kind ∈ last.map Report.kind := mem_map_of_mem hmem
      rw [hlast] at hkind
      split at hkind
      · simp [namesLocal, mem_singleton.mp hkind]
      · cases hkind
    rw [← hreports, filter_namesLocal]
    change (viewOf s2).reports.filter namesLocal = _
    rw [hview, filter_append, hlast, append_nil]
    refine (congrArg (List.filter namesLocal) hstrays).trans (filter_eq_self.mpr ?_)
    intro report hmem
    obtain ⟨use, -, rfl⟩ := mem_map.mp hmem
    exact namesLocal_strayReport _ _
  · change (viewOf s2).notes = _
    rw [hview]
    exact hnotes.trans (append_nil _)

/-- The environment of a program without items. -/
def noItems : Environment :=
  .ofProgram .fnv ⟨"", .initial, []⟩

/-- A body that uses the variable of a pattern in its arm and behind the match. -/
def leakingArm : Core.Body :=
  let int (kind : Core.ExprKind) : Core.Expr := ⟨0, .zero, Source.TypeTable.int, kind⟩
  let taken := int (.matchOn (int (.localVar ⟨0⟩)) [⟨.bind ⟨1⟩, int (.localVar ⟨1⟩), .zero⟩])
  { name := "leak"
    params := [⟨0⟩]
    ret := Source.TypeTable.int
    locals := #[⟨"n", Source.TypeTable.int, false, false⟩, ⟨"k", Source.TypeTable.int, false, false⟩]
    block := ⟨0, .zero, [⟨0, .zero, .expr taken⟩], some (int (.localVar ⟨1⟩))⟩
    span := .zero
    node := 0 }

lemma exists_ok_of_toBool {ε α : Type} {x : Except ε α} (h : x.toBool = true) : ∃ a, x = .ok a := by
  cases x with
  | ok a => exact ⟨a, rfl⟩
  | error e => cases h

theorem leakingArm_strays : (outlineOfBody leakingArm).declares = [⟨0⟩, ⟨1⟩] ∧
    ∃ f, (lowerBody noItems leakingArm).function = .ok f ∧
      (lowerBody noItems leakingArm).reports.filter namesLocal =
        [strayReport ⟨noItems, leakingArm⟩ ⟨1⟩ .zero] := by
  obtain ⟨f, hf⟩ : ∃ f, (lowerBody noItems leakingArm).function = .ok f :=
    exists_ok_of_toBool (by decide +kernel)
  exact ⟨rfl, f, hf, (strays_are_reported (by decide) hf).1⟩

end SsaLowering.Proofs
