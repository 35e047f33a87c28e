import SsaLowering.Proofs.LoweredBody
import SsaLowering.Proofs.ReadingBack

/-!
# Functions that can be lowered

A function of a loaded program that keeps to the rules of `selection` has a core form, and lowering
it gives a function, unless a pattern that may fail is matched against an expression that control
does not get behind.
-/

namespace SsaLowering.Proofs

open Ir Lowering
open SsaLowering.Core (Body desugar)
open Source (TypeTable Tree Program LoadedItem LoadedBlock LoadedExpr)

variable {C : Decls} {strict live : Bool}

/-! ### Bodies -/

/-- Lowering a body that keeps to the rules ends in no error but that of a pattern that may fail. -/
lemma lowerBody_lowers {env : Environment} {body : Body} (henv : Faithful env)
    (h : BodyObeys (selection env body.ret strict) env.types C body) :
    (∃ f, (lowerBody env body).function = .ok f) ∨ strict = false ∧ ∃ span,
      (lowerBody env body).function = .error (.internal ⟨span, .refutableOnValueless⟩) := by
  let K : Setting := ⟨⟨env, body⟩, C, strict, True, False, h.decls_eq, fun _ => henv⟩
  have hrules : K.rules = selection env body.ret strict := by
    simp [K, Setting.rules, selection]
  have hends := lowerBody_ends (K := K) fun _ => hrules ▸ h
  cases hfun : (lowerBody env body).function with
  | ok f => exact .inl ⟨f, rfl⟩
  | error error =>
    rw [show (lowerBody K.ctx.env K.ctx.body).function = .error error from hfun] at hends
    cases error with
    | internal error =>
      obtain ⟨hstrict, hcause⟩ := hends trivial
      obtain ⟨span, cause⟩ := error
      exact .inr ⟨hstrict, span, hcause ▸ rfl⟩
    | _ => exact hends.elim

/-! ### Functions -/

variable {env : Environment} {ret : Nat}

lemma selection_lawful (henv : Faithful env) : (selection env ret strict).Lawful where
  literal_bool _ _ := ⟨fun _ => by simp, fun _ => trivial⟩
  literal_int _ _ := ⟨fun _ => by simp, fun _ => trivial⟩
  compare _ op hop := by
    refine ⟨⟨⟨.int, henv.primitives TypeTable.int .int rfl, fun _ _ => ?_⟩, ?_⟩, fun _ => trivial⟩
    · rcases hop with rfl | rfl <;> rfl
    · simp [Valued, henv.ty_int]
  add _ := by
    refine ⟨⟨⟨.int, henv.primitives TypeTable.int .int rfl, fun _ _ => rfl⟩, ?_⟩, fun _ => trivial⟩
    simp [Valued, henv.ty_int]
  cond_bool _ := by
    refine ⟨?_, fun _ => trivial⟩
    simp [Selected, Valued, henv.ty_bool]
  value_unit _ _ := ⟨trivial, fun _ hvalued => absurd henv.ty_unit hvalued⟩
  value_tail _ _ _ _ h h' := ⟨trivial, fun hreached hvalued =>
    h'.2 hreached (h.2 hreached hvalued)⟩
  tail_unit _ := ⟨trivial, fun _ hvalued => hvalued⟩
  bind_true := rfl
  init_refl _ _ := ⟨trivial, fun _ => trivial⟩
  assign _ _ _ h := h
  assign_refl _ _ := trivial

lemma selection_strict : (selection env ret strict).Strict env.types where
  field _ _ h := h
  data _ _ h := h
  result _ _ h := h.1
  malformed h := h

/-- A function of a loaded program that keeps to the rules has a core form, and it can be lowered. If
it is not strict, a pattern that may fail can be matched against an expression that control does not
get behind: this is the only internal error. -/
theorem selected_functions_lower (digest : Digest) {tree : Tree} {program : Program}
    (hload : tree.load = .ok program)
    {item : LoadedItem} {params : List (Source.Param Nat Span)} {ret : Nat} {block : LoadedBlock}
    (hkind : item.kind = .function params ret (some block)) {strict : Bool} {Γ : Bindings}
    (h : FunctionObeys (selection (.ofProgram digest program) ret strict) program.types Γ params
      block) :
    ∃ body, desugar program.types item = .ok (some body) ∧
      ((∃ f, (lowerBody (.ofProgram digest program) body).function = .ok f) ∨
        strict = false ∧ ∃ span, (lowerBody (.ofProgram digest program) body).function =
          .error (.internal ⟨span, .refutableOnValueless⟩)) := by
  have henv := ofProgram_faithful digest (load_regular hload)
  obtain ⟨hsome, hright⟩ := desugar_obeys (selection_lawful henv) hkind h
  obtain ⟨body, hbody⟩ := hsome selection_strict
  obtain ⟨rfl, C, hobeys⟩ := hright body hbody
  exact ⟨body, hbody, lowerBody_lowers henv hobeys⟩

/-! ### Expressions that control does not get behind -/

def bothReturn {τ σ ν : Type} (int bool : τ) (span : σ) (node : Nat → ν) : Source.Expr τ σ ν :=
  let arm (first : Nat) (value : Int64) : Source.Block τ σ ν :=
    ⟨node (first + 2), span, [⟨node (first + 1), span,
      .ret (some ⟨node first, span, int, .literal (.int value)⟩)⟩], none⟩
  ⟨node 8, span, int, .ifElse ⟨node 0, span, bool, .localVar 0 "c"⟩ (arm 1 1)
    (some ⟨node 7, span, int, .block (arm 4 2)⟩)⟩

/-- A module with one function, from a truth value to a number. -/
def chooseTree (tail : Source.Expr Source.TypeName Source.Bounds Unit) : Tree :=
  { name := "choose"
    datas := []
    items := [⟨(), none, "f", .function [⟨0, "c", .bool, false, none⟩] .int
      (some ⟨(), none, [], some tail⟩)⟩] }

def chooseItem (node : Nat) (tail : LoadedExpr) : LoadedItem :=
  ⟨node + 1, .zero, "f", .function [⟨0, "c", TypeTable.bool, false, .zero⟩] TypeTable.int
    (some ⟨node, .zero, [], some tail⟩)⟩

def choose (node : Nat) (tail : LoadedExpr) : Program :=
  { name := "choose", types := .initial, items := [chooseItem node tail] }

/-- The parameter is not assigned to. -/
def chooseBindings : Bindings :=
  ⟨fun _ => TypeTable.bool, fun _ => true⟩

@[simp] lemma chooseBindings_ty (binding : Nat) : chooseBindings.ty binding = TypeTable.bool := rfl

@[simp] lemma bothReturn_ty {τ σ ν : Type} (int bool : τ) (span : σ) (node : Nat → ν) :
    (bothReturn int bool span node).ty = int := rfl

section Choose

variable {types : TypeTable}

lemma Faithful.valued_int (henv : Faithful env) : Valued env TypeTable.int := by
  simp [Valued, henv.ty_int]

lemma Faithful.valued_bool (henv : Faithful env) : Valued env TypeTable.bool := by
  simp [Valued, henv.ty_bool]

lemma bothReturn_obeys (henv : Faithful env) (node : Nat → Nat) :
    SourceExprObeys (selection env ret strict) types chooseBindings live
      (bothReturn TypeTable.int TypeTable.bool .zero node) := by
  simp [bothReturn, SourceExprObeys, SourceBlockObeys, SourceStmtsObey, SourceStmtObeys,
    flowOfSourceExpr, flowOfSourceBlock, flowOfSourceStmts, flowOfSourceStmt, Rules.Hold, Selected,
    Delivered, henv.valued_bool]

lemma flowOf_bothReturn (node : Nat → Nat) :
    flowOfSourceExpr (bothReturn TypeTable.int TypeTable.bool .zero node) = .stop := by
  simp [bothReturn, flowOfSourceExpr, flowOfSourceBlock, flowOfSourceStmts, flowOfSourceStmt,
    Flow.stop, Flow.andThen, Flow.orElse, Flow.pass]

lemma choose_obeys {tail : LoadedExpr} (node : Nat)
    (h : SourceExprObeys (selection env TypeTable.int strict) types chooseBindings true tail) :
    FunctionObeys (selection env TypeTable.int strict) types chooseBindings
      [⟨0, "c", TypeTable.bool, false, .zero⟩] ⟨node, .zero, [], some tail⟩ := by
  constructor
  · simp [Introduces, chooseBindings, Selected]
  · simpa [SourceBlockObeys, SourceStmtsObey, flowOfSourceStmts] using h
  · exact ⟨trivial, fun _ => trivial⟩

/-- A branch that returns stands in an arm, as an operand. -/
def returningArm : LoadedExpr :=
  ⟨13, .zero, TypeTable.int, .matchOn ⟨0, .zero, TypeTable.bool, .localVar 0 "c"⟩
    [⟨.bool true, ⟨11, .zero, TypeTable.int, .binary .add ⟨1, .zero, TypeTable.int, .literal (.int 1)⟩
        (bothReturn TypeTable.int TypeTable.bool .zero (· + 2))⟩, .zero⟩,
      ⟨.wildcard, ⟨12, .zero, TypeTable.int, .literal (.int 20)⟩, .zero⟩]⟩

lemma returningArm_loads : ∃ tree : Tree, tree.load = .ok (choose 14 returningArm) :=
  ⟨chooseTree ⟨(), none, .int, .matchOn ⟨(), none, .bool, .localVar 0 "c"⟩
    [⟨.bool true, ⟨(), none, .int, .binary .add ⟨(), none, .int, .literal (.int 1)⟩
        (bothReturn .int .bool none fun _ => ())⟩, none⟩,
      ⟨.wildcard, ⟨(), none, .int, .literal (.int 20)⟩, none⟩]⟩, rfl⟩

lemma returningArm_obeys (henv : Faithful env) :
    SourceExprObeys (selection env ret true) types chooseBindings true returningArm := by
  have hkind := henv.primitives TypeTable.int .int rfl
  simp [returningArm, SourceExprObeys, SourceArmsObey, SourcePatternObeys, sourceShapeOf,
    flowOfSourceExpr, flowOf_bothReturn, Rules.Hold, Selected, Delivered, henv.valued_bool,
    henv.valued_int, hkind, selectBinary, intOp?, Core.BinaryOp.ofSource?, bothReturn_obeys henv]

theorem returningArm_lowers : ∃ body,
    FunctionObeys (selection (.ofProgram .fnv (choose 14 returningArm)) TypeTable.int true)
      (choose 14 returningArm).types chooseBindings [⟨0, "c", TypeTable.bool, false, .zero⟩]
      ⟨14, .zero, [], some returningArm⟩ ∧
    desugar (choose 14 returningArm).types (chooseItem 14 returningArm) = .ok (some body) ∧
    ∃ f, (lowerBody (.ofProgram .fnv (choose 14 returningArm)) body).function = .ok f := by
  obtain ⟨tree, hload⟩ := returningArm_loads
  have hobeys : FunctionObeys (selection (.ofProgram .fnv (choose 14 returningArm)) TypeTable.int true)
      (choose 14 returningArm).types chooseBindings _ ⟨14, .zero, [], some returningArm⟩ :=
    choose_obeys 14 (returningArm_obeys (ofProgram_faithful _ (load_regular hload)))
  have hkind : (chooseItem 14 returningArm).kind = .function _ _ (some _) := rfl
  obtain ⟨body, hbody, hlowers⟩ := selected_functions_lower .fnv hload hkind hobeys
  exact ⟨body, hobeys, hbody, hlowers.resolve_right nofun⟩

/-- A pattern that may fail is matched against a branch that returns. -/
def returningScrutinee : LoadedExpr :=
  ⟨11, .zero, TypeTable.int, .matchOn (bothReturn TypeTable.int TypeTable.bool .zero id)
    [⟨.int 0, ⟨9, .zero, TypeTable.int, .literal (.int 10)⟩, .zero⟩,
      ⟨.wildcard, ⟨10, .zero, TypeTable.int, .literal (.int 20)⟩, .zero⟩]⟩

lemma returningScrutinee_loads : ∃ tree : Tree, tree.load = .ok (choose 12 returningScrutinee) :=
  ⟨chooseTree ⟨(), none, .int, .matchOn (bothReturn .int .bool none fun _ => ())
    [⟨.int 0, ⟨(), none, .int, .literal (.int 10)⟩, none⟩,
      ⟨.wildcard, ⟨(), none, .int, .literal (.int 20)⟩, none⟩]⟩, rfl⟩

lemma returningScrutinee_obeys (henv : Faithful env) :
    SourceExprObeys (selection env ret false) types chooseBindings true returningScrutinee := by
  simp [returningScrutinee, SourceExprObeys, SourceArmsObey, SourcePatternObeys, sourceShapeOf,
    flowOf_bothReturn, Rules.Hold, Selected, henv.valued_int, bothReturn_obeys henv]

/-- It keeps to the rules, and its lowering ends in an internal error. -/
theorem returningScrutinee_fails :
    (∃ tree : Tree, tree.load = .ok (choose 12 returningScrutinee)) ∧
    FunctionObeys (selection (.ofProgram .fnv (choose 12 returningScrutinee)) TypeTable.int false)
      (choose 12 returningScrutinee).types chooseBindings [⟨0, "c", TypeTable.bool, false, .zero⟩]
      ⟨12, .zero, [], some returningScrutinee⟩ ∧
    ∃ body, desugar (choose 12 returningScrutinee).types (chooseItem 12 returningScrutinee) =
        .ok (some body) ∧
      (lowerBody (.ofProgram .fnv (choose 12 returningScrutinee)) body).function =
        .error (.internal ⟨.zero, .refutableOnValueless⟩) := by
  obtain ⟨tree, hload⟩ := returningScrutinee_loads
  have henv := ofProgram_faithful .fnv (load_regular hload)
  refine ⟨⟨tree, hload⟩, choose_obeys 12 (returningScrutinee_obeys henv), ?_⟩
  exact ⟨_, rfl, by decide +kernel⟩

end Choose

end SsaLowering.Proofs
