import SsaLowering.Core.Desugaring
import SsaLowering.Proofs.Flow

/-!
# Rules for bodies

The places of a body where static types meet, and what it means that a body keeps to some rules at
all of them. A rule may hold always, or only where control gets to: an expression that control does
not get behind may have any type.
-/

namespace SsaLowering.Proofs

open SsaLowering.Core (Local LocalDecl)
open Source (TypeTable LoadedBlock LoadedStmt LoadedExpr)

/-! ### Sites -/

/-- What a pattern is matched against. -/
inductive Shape where
  | any
  | int
  | bool
  | result
  deriving DecidableEq, Repr

/-- A place where static types meet. -/
inductive Site where
  | literal (ty : Nat) (value : Source.Literal)
  | globalVar (ty : Nat) (name : String)
  | binary (op : Core.BinaryOp) (lhs rhs ty : Nat)
  | unary (op : Source.UnaryOp) (operand ty : Nat)
  | cast (operand ty : Nat)
  | field (base : Nat) (name : String)
  | data (ty : Nat) (names : List String)
  | result (isErr : Bool) (payload ty : Nat)
  | cond (ty : Nat)
  /-- The value of an arm, where a value of some type is expected. -/
  | value (expected actual : Nat)
  /-- The value of a block of some type. -/
  | tail (expected actual : Nat)
  /-- A pattern; `reached` says whether control gets behind the scrutinee. -/
  | pattern (shape : Shape) (scrutinee : Nat) (reached : Bool)
  | propagate (operand ty : Nat)
  /-- A variable that starts with a value; it may change, or no assignment to it is allowed. -/
  | bind (settled : Bool)
  | init (expected actual : Nat)
  /-- An assignment to a variable, and whether the variable is fixed. -/
  | assign (fixed : Bool) (expected actual : Nat)
  | ret (actual : Option Nat)
  /-- An `else if` without a condition, or an assignment to something that is no place. -/
  | malformed

/-- Rules for the sites of a body. -/
structure Rules where
  always : Site → Prop
  reached : Site → Prop

/-- The rules allow a site that control may get to. -/
def Rules.Hold (R : Rules) (reached : Bool) (site : Site) : Prop :=
  R.always site ∧ (reached = true → R.reached site)

/-- A number stands for a data type. -/
def IsData (types : TypeTable) (ty : Nat) : Prop :=
  ∃ data, Core.dataOf? types ty = some data

/-! ### Core bodies -/

/-- What is known of the locals of a body, and which of them nothing is assigned to. -/
structure Decls where
  decls : Arena LocalDecl
  fixed : Local → Bool

namespace Decls

variable (C : Decls) (var : Local)

def ty : Nat :=
  ((C.decls[var.id]?).map LocalDecl.ty).getD 0

def changes : Bool :=
  ((C.decls[var.id]?).map fun decl => decl.mutable || decl.captured).getD false

end Decls

/-- The static type of a block. -/
def blockType : Core.Block → Nat
  | ⟨_, _, _, tail⟩ => (tail.map Core.Expr.ty).getD TypeTable.unit

def shapeOf : Core.Pattern → Shape
  | .wildcard | .bind _ => .any
  | .int _ => .int
  | .bool _ => .bool
  | .ok _ | .err _ => .result

section Core

variable (R : Rules) (types : TypeTable) (C : Decls)

/-- A local is declared with some type and starts with a value. -/
def Starts (ty : Nat) (var : Local) : Prop :=
  C.ty var = ty ∧ R.always (.bind (C.changes var || C.fixed var))

/-- A pattern on a scrutinee of some type binds variables of the right types. -/
def PatternObeys (scrutinee : Nat) : Core.Pattern → Prop
  | .wildcard | .int _ | .bool _ => True
  | .bind var => Starts R C scrutinee var
  | .ok var => ∃ ok err, Core.payloadsOf? types scrutinee = some (ok, err) ∧
    ∀ v ∈ var, Starts R C ok v
  | .err var => ∃ ok err, Core.payloadsOf? types scrutinee = some (ok, err) ∧
    ∀ v ∈ var, Starts R C err v

mutual

/-- A block keeps to the rules; `live` says whether control gets to it. -/
def BlockObeys (live : Bool) : Core.Block → Prop
  | ⟨_, _, stmts, none⟩ => StmtsObey live stmts
  | ⟨_, _, stmts, some tail⟩ =>
    StmtsObey live stmts ∧ ExprObeys (live && (flowOfStmts stmts).behind) tail

def StmtsObey (live : Bool) : List Core.Stmt → Prop
  | [] => True
  | stmt :: rest => StmtObeys live stmt ∧ StmtsObey (live && (flowOfStmt stmt).behind) rest

def StmtObeys (live : Bool) : Core.Stmt → Prop
  | ⟨_, _, .letVar _ none⟩ => True
  | ⟨_, _, .letVar var (some init)⟩ =>
    ExprObeys live init ∧ R.Hold (live && (flowOfExpr init).behind) (.init (C.ty var) init.ty) ∧
      R.always (.bind (C.changes var || C.fixed var))
  | ⟨_, _, .assign (.localVar var) value⟩ =>
    ExprObeys live value ∧
      R.Hold (live && (flowOfExpr value).behind) (.assign (C.fixed var) (C.ty var) value.ty)
  | ⟨_, _, .assign (.globalVar _) value⟩ => ExprObeys live value
  | ⟨_, _, .assign (.field base _) value⟩ =>
    ExprObeys live base ∧ IsData types base.ty ∧ ExprObeys (live && (flowOfExpr base).behind) value
  | ⟨_, _, .expr value⟩ => ExprObeys live value
  | ⟨_, _, .ret none⟩ => R.Hold live (.ret none)
  | ⟨_, _, .ret (some value)⟩ =>
    ExprObeys live value ∧ R.Hold (live && (flowOfExpr value).behind) (.ret (some value.ty))
  | ⟨_, _, .breakLoop⟩ => True
  | ⟨_, _, .continueLoop⟩ => True
  | ⟨_, _, .loop none body none⟩ => BlockObeys live body
  | ⟨_, _, .loop none body (some step)⟩ =>
    BlockObeys live body ∧ BlockObeys (live && Flow.again none (flowOfBlock body)) step
  | ⟨_, _, .loop (some cond) body none⟩ =>
    ExprObeys live cond ∧ R.Hold (live && (flowOfExpr cond).behind) (.cond cond.ty) ∧
      BlockObeys (live && (flowOfExpr cond).behind) body
  | ⟨_, _, .loop (some cond) body (some step)⟩ =>
    ExprObeys live cond ∧ R.Hold (live && (flowOfExpr cond).behind) (.cond cond.ty) ∧
      BlockObeys (live && (flowOfExpr cond).behind) body ∧
      BlockObeys (live && Flow.again (some (flowOfExpr cond)) (flowOfBlock body)) step

/-- An expression keeps to the rules, operand by operand, as far as control gets. -/
def ExprObeys (live : Bool) : Core.Expr → Prop
  | ⟨_, _, ty, .literal value⟩ => R.Hold live (.literal ty value)
  | ⟨_, _, ty, .localVar var⟩ => live = true → ty = C.ty var
  | ⟨_, _, ty, .globalVar name⟩ => R.Hold live (.globalVar ty name)
  | ⟨_, _, ty, .binary op lhs rhs⟩ =>
    ExprObeys live lhs ∧ ExprObeys (live && (flowOfExpr lhs).behind) rhs ∧
      R.Hold (live && (flowOfExpr lhs).behind && (flowOfExpr rhs).behind)
        (.binary op lhs.ty rhs.ty ty)
  | ⟨_, _, ty, .unary op operand⟩ =>
    ExprObeys live operand ∧ R.Hold (live && (flowOfExpr operand).behind) (.unary op operand.ty ty)
  | ⟨_, _, ty, .cast operand⟩ =>
    ExprObeys live operand ∧ R.Hold (live && (flowOfExpr operand).behind) (.cast operand.ty ty)
  | ⟨_, _, _, .call _ args⟩ => ArgsObey live args
  | ⟨_, _, _, .field base _⟩ => ExprObeys live base ∧ IsData types base.ty
  | ⟨_, _, ty, .data inits⟩ => IsData types ty ∧ InitsObey live inits
  | ⟨_, _, ty, .ok value⟩ =>
    ExprObeys live value ∧ R.Hold (live && (flowOfExpr value).behind) (.result false value.ty ty)
  | ⟨_, _, ty, .err value⟩ =>
    ExprObeys live value ∧ R.Hold (live && (flowOfExpr value).behind) (.result true value.ty ty)
  | ⟨_, _, ty, .ifElse cond body otherwise⟩ =>
    ExprObeys live cond ∧ R.Hold (live && (flowOfExpr cond).behind) (.cond cond.ty) ∧
      BlockObeys (live && (flowOfExpr cond).behind) body ∧
      R.Hold (live && (flowOfExpr cond).behind && (flowOfBlock body).behind)
        (.value ty (blockType body)) ∧
      BlockObeys (live && (flowOfExpr cond).behind) otherwise ∧
      R.Hold (live && (flowOfExpr cond).behind && (flowOfBlock otherwise).behind)
        (.value ty (blockType otherwise))
  | ⟨_, _, ty, .matchOn scrutinee arms⟩ =>
    ExprObeys live scrutinee ∧
      ArmsObey (live && (flowOfExpr scrutinee).behind) ty scrutinee.ty arms
  | ⟨_, _, ty, .block body⟩ =>
    BlockObeys live body ∧ R.Hold (live && (flowOfBlock body).behind) (.tail ty (blockType body))
  | ⟨_, _, ty, .propagate value⟩ =>
    ExprObeys live value ∧ R.Hold (live && (flowOfExpr value).behind) (.propagate value.ty ty)

def ArgsObey (live : Bool) : List Core.Expr → Prop
  | [] => True
  | arg :: rest => ExprObeys live arg ∧ ArgsObey (live && (flowOfExpr arg).behind) rest

def InitsObey (live : Bool) : List Core.FieldInit → Prop
  | [] => True
  | ⟨_, value⟩ :: rest => ExprObeys live value ∧ InitsObey (live && (flowOfExpr value).behind) rest

/-- The arms of a match of type `ty`. -/
def ArmsObey (live : Bool) (ty scrutinee : Nat) : List Core.Arm → Prop
  | [] => True
  | ⟨pattern, body, _⟩ :: rest =>
    PatternObeys R types C scrutinee pattern ∧
      R.Hold live (.pattern (shapeOf pattern) scrutinee live) ∧ ExprObeys live body ∧
      R.Hold (live && (flowOfExpr body).behind) (.value ty body.ty) ∧
      ArmsObey (live && !pattern.isIrrefutable) ty scrutinee rest

end

/-- A body keeps to the rules, given what is known of its locals. -/
structure BodyObeys (body : Core.Body) : Prop where
  decls_eq : C.decls = body.locals
  params : ∀ var ∈ body.params, R.always (.bind (C.changes var || C.fixed var))
  block : BlockObeys R types C true body.block
  tail : R.Hold (flowOfBlock body.block).behind (.ret (body.block.tail.map Core.Expr.ty))

end Core

/-! ### Source bodies -/

def sourceShapeOf : Source.Pattern → Shape
  | .wildcard | .bind _ => .any
  | .int _ => .int
  | .bool _ => .bool
  | .ok _ | .err _ => .result

mutual

/-- Where control goes from a block, as for its core form. -/
def flowOfSourceBlock : LoadedBlock → Flow
  | ⟨_, _, stmts, none⟩ => flowOfSourceStmts stmts
  | ⟨_, _, stmts, some tail⟩ => (flowOfSourceStmts stmts).andThen (flowOfSourceExpr tail)

def flowOfSourceStmts : List LoadedStmt → Flow
  | [] => .pass
  | stmt :: rest => (flowOfSourceStmt stmt).andThen (flowOfSourceStmts rest)

def flowOfSourceStmt : LoadedStmt → Flow
  | ⟨_, _, .letVar _ _ _ _ _ none⟩ => .pass
  | ⟨_, _, .letVar _ _ _ _ _ (some init)⟩ => flowOfSourceExpr init
  | ⟨_, _, .assign ⟨_, _, _, .field base _⟩ _ value⟩ =>
    (flowOfSourceExpr base).andThen (flowOfSourceExpr value)
  | ⟨_, _, .assign _ _ value⟩ => flowOfSourceExpr value
  | ⟨_, _, .expr value⟩ => flowOfSourceExpr value
  | ⟨_, _, .ret none⟩ => .stop
  | ⟨_, _, .ret (some value)⟩ => (flowOfSourceExpr value).andThen .stop
  | ⟨_, _, .ifElse cond body otherwise⟩ =>
    (flowOfSourceExpr cond).andThen ((flowOfSourceBlock body).orElse (flowOfSourceElse otherwise))
  | ⟨_, _, .whileLoop cond body⟩ =>
    .loop (some (flowOfSourceExpr cond)) (flowOfSourceBlock body) none
  | ⟨_, _, .loop body⟩ => .loop none (flowOfSourceBlock body) none
  | ⟨_, _, .forRange _ _ first last _ body⟩ =>
    (flowOfSourceExpr first).andThen ((flowOfSourceExpr last).andThen
      (.loop (some .pass) (flowOfSourceBlock body) (some .pass)))
  | ⟨_, _, .breakLoop⟩ => ⟨false, true, false⟩
  | ⟨_, _, .continueLoop⟩ => ⟨false, false, true⟩

def flowOfSourceElse : Option (Source.Else Nat Span Nat) → Flow
  | none => .pass
  | some (.block body) => flowOfSourceBlock body
  | some (.chain stmt) => flowOfSourceStmt stmt

def flowOfSourceExpr : LoadedExpr → Flow
  | ⟨_, _, _, .literal _⟩ | ⟨_, _, _, .localVar _ _⟩ | ⟨_, _, _, .globalVar _⟩ => .pass
  -- the right operand may be skipped
  | ⟨_, _, _, .binary .and lhs rhs⟩ | ⟨_, _, _, .binary .or lhs rhs⟩ =>
    (flowOfSourceExpr lhs).andThen (.orElse .pass (flowOfSourceExpr rhs))
  | ⟨_, _, _, .binary _ lhs rhs⟩ => (flowOfSourceExpr lhs).andThen (flowOfSourceExpr rhs)
  | ⟨_, _, _, .unary _ operand⟩ | ⟨_, _, _, .cast operand⟩ => flowOfSourceExpr operand
  | ⟨_, _, ty, .call _ args⟩ =>
    (flowOfSourceArgs args).andThen (if ty = TypeTable.never then .stop else .pass)
  | ⟨_, _, _, .field base _⟩ => flowOfSourceExpr base
  | ⟨_, _, _, .data inits⟩ => flowOfSourceInits inits
  | ⟨_, _, _, .ok value⟩ | ⟨_, _, _, .err value⟩ => flowOfSourceExpr value
  | ⟨_, _, _, .ifElse cond body none⟩ =>
    (flowOfSourceExpr cond).andThen ((flowOfSourceBlock body).orElse .pass)
  | ⟨_, _, _, .ifElse cond body (some otherwise)⟩ =>
    (flowOfSourceExpr cond).andThen ((flowOfSourceBlock body).orElse (flowOfSourceExpr otherwise))
  | ⟨_, _, _, .matchOn scrutinee arms⟩ =>
    (flowOfSourceExpr scrutinee).andThen (flowOfSourceArms arms)
  | ⟨_, _, _, .block body⟩ => flowOfSourceBlock body
  | ⟨_, _, _, .propagate value⟩ => flowOfSourceExpr value

def flowOfSourceArgs : List LoadedExpr → Flow
  | [] => .pass
  | arg :: rest => (flowOfSourceExpr arg).andThen (flowOfSourceArgs rest)

def flowOfSourceInits : List (Source.FieldInit Nat Span Nat) → Flow
  | [] => .pass
  | ⟨_, value⟩ :: rest => (flowOfSourceExpr value).andThen (flowOfSourceInits rest)

def flowOfSourceArms : List (Source.Arm Nat Span Nat) → Flow
  | [] => .stop
  | ⟨pattern, body, _⟩ :: rest =>
    if sourceShapeOf pattern = .any then flowOfSourceExpr body
    else (flowOfSourceExpr body).orElse (flowOfSourceArms rest)

end

/-- The types of the bindings of a body, and those that nothing is assigned to. -/
structure Bindings where
  ty : Nat → Nat
  fixed : Nat → Bool

def sourceBlockType : LoadedBlock → Nat
  | ⟨_, _, _, tail⟩ => (tail.map Source.Expr.ty).getD TypeTable.unit

section Source

variable (R : Rules) (types : TypeTable) (Γ : Bindings)

/-- A binding has its type and starts with a value. -/
def Introduces (ty binding : Nat) (changes : Bool) : Prop :=
  Γ.ty binding = ty ∧ R.always (.bind (changes || Γ.fixed binding))

def SourcePatternObeys (scrutinee : Nat) : Source.Pattern → Prop
  | .wildcard | .int _ | .bool _ => True
  | .bind var => Introduces R Γ scrutinee var.binding var.mutable
  | .ok var => ∀ v ∈ var, ∀ ok err, Core.payloadsOf? types scrutinee = some (ok, err) →
    Introduces R Γ ok v.binding v.mutable
  | .err var => ∀ v ∈ var, ∀ ok err, Core.payloadsOf? types scrutinee = some (ok, err) →
    Introduces R Γ err v.binding v.mutable

/-- The operator of a compound assignment to a place of some type. -/
def CompoundObeys (reached : Bool) (op : Option Source.BinaryOp) (target value : Nat) : Prop :=
  match op with
  | none => True
  | some op =>
    match Core.BinaryOp.ofSource? op with
    | none => R.always .malformed
    | some op => R.Hold reached (.binary op target value target)

mutual

/-- A block keeps to the rules; `live` says whether control gets to it. -/
def SourceBlockObeys (live : Bool) : LoadedBlock → Prop
  | ⟨_, _, stmts, none⟩ => SourceStmtsObey live stmts
  | ⟨_, _, stmts, some tail⟩ =>
    SourceStmtsObey live stmts ∧ SourceExprObeys (live && (flowOfSourceStmts stmts).behind) tail

def SourceStmtsObey (live : Bool) : List LoadedStmt → Prop
  | [] => True
  | stmt :: rest =>
    SourceStmtObeys live stmt ∧ SourceStmtsObey (live && (flowOfSourceStmt stmt).behind) rest

def SourceStmtObeys (live : Bool) : LoadedStmt → Prop
  | ⟨_, _, .letVar binding _ _ _ ty none⟩ => Γ.ty binding = ty
  | ⟨_, _, .letVar binding _ mutable captured ty (some init)⟩ =>
    SourceExprObeys live init ∧ Introduces R Γ ty binding (mutable || captured) ∧
      R.Hold (live && (flowOfSourceExpr init).behind) (.init ty init.ty)
  | ⟨_, _, .assign ⟨_, _, ty, .localVar binding _⟩ op value⟩ =>
    Γ.ty binding = ty ∧ SourceExprObeys live value ∧
      CompoundObeys R (live && (flowOfSourceExpr value).behind) op ty value.ty ∧
      R.Hold (live && (flowOfSourceExpr value).behind)
        (.assign (Γ.fixed binding) ty (if op.isSome then ty else value.ty))
  | ⟨_, _, .assign ⟨_, _, ty, .globalVar name⟩ op value⟩ =>
    SourceExprObeys live value ∧ (op.isSome = true → R.Hold live (.globalVar ty name)) ∧
      CompoundObeys R (live && (flowOfSourceExpr value).behind) op ty value.ty
  | ⟨_, _, .assign ⟨_, _, ty, .field base name⟩ op value⟩ =>
    SourceExprObeys live base ∧ R.always (.field base.ty name) ∧
      SourceExprObeys (live && (flowOfSourceExpr base).behind) value ∧
      CompoundObeys R
        (live && (flowOfSourceExpr base).behind && (flowOfSourceExpr value).behind) op ty value.ty
  | ⟨_, _, .assign _ _ _⟩ => R.always .malformed
  | ⟨_, _, .expr value⟩ => SourceExprObeys live value
  | ⟨_, _, .ret none⟩ => R.Hold live (.ret none)
  | ⟨_, _, .ret (some value)⟩ =>
    SourceExprObeys live value ∧
      R.Hold (live && (flowOfSourceExpr value).behind) (.ret (some value.ty))
  | ⟨_, _, .ifElse cond body otherwise⟩ =>
    SourceExprObeys live cond ∧ R.Hold (live && (flowOfSourceExpr cond).behind) (.cond cond.ty) ∧
      SourceBlockObeys (live && (flowOfSourceExpr cond).behind) body ∧
      SourceElseObeys (live && (flowOfSourceExpr cond).behind) otherwise
  | ⟨_, _, .whileLoop cond body⟩ =>
    SourceExprObeys live cond ∧ R.Hold (live && (flowOfSourceExpr cond).behind) (.cond cond.ty) ∧
      SourceBlockObeys (live && (flowOfSourceExpr cond).behind) body
  | ⟨_, _, .loop body⟩ => SourceBlockObeys live body
  | ⟨_, _, .forRange binding _ first last _ body⟩ =>
    SourceExprObeys live first ∧
      SourceExprObeys (live && (flowOfSourceExpr first).behind) last ∧ Γ.ty binding = first.ty ∧
      ((live && (flowOfSourceExpr first).behind && (flowOfSourceExpr last).behind) = true →
        first.ty = TypeTable.int ∧ last.ty = TypeTable.int) ∧
      R.always (.assign (Γ.fixed binding) TypeTable.int TypeTable.int) ∧
      SourceBlockObeys
        (live && (flowOfSourceExpr first).behind && (flowOfSourceExpr last).behind) body
  | ⟨_, _, .breakLoop⟩ => True
  | ⟨_, _, .continueLoop⟩ => True

def SourceElseObeys (live : Bool) : Option (Source.Else Nat Span Nat) → Prop
  | none => True
  | some (.block body) => SourceBlockObeys live body
  | some (.chain ⟨_, _, .ifElse cond body otherwise⟩) =>
    SourceExprObeys live cond ∧ R.Hold (live && (flowOfSourceExpr cond).behind) (.cond cond.ty) ∧
      SourceBlockObeys (live && (flowOfSourceExpr cond).behind) body ∧
      SourceElseObeys (live && (flowOfSourceExpr cond).behind) otherwise
  | some (.chain _) => R.always .malformed

def SourceExprObeys (live : Bool) : LoadedExpr → Prop
  | ⟨_, _, ty, .literal value⟩ => R.Hold live (.literal ty value)
  | ⟨_, _, ty, .localVar binding _⟩ => Γ.ty binding = ty
  | ⟨_, _, ty, .globalVar name⟩ => R.Hold live (.globalVar ty name)
  | ⟨_, _, ty, .binary op lhs rhs⟩ =>
    SourceExprObeys live lhs ∧ SourceExprObeys (live && (flowOfSourceExpr lhs).behind) rhs ∧
      match Core.BinaryOp.ofSource? op with
      | some op =>
        R.Hold (live && (flowOfSourceExpr lhs).behind && (flowOfSourceExpr rhs).behind)
          (.binary op lhs.ty rhs.ty ty)
      | none =>
        R.Hold (live && (flowOfSourceExpr lhs).behind) (.cond lhs.ty) ∧
          R.Hold (live && (flowOfSourceExpr lhs).behind) (.value ty TypeTable.bool) ∧
          R.Hold (live && (flowOfSourceExpr lhs).behind && (flowOfSourceExpr rhs).behind)
            (.value ty rhs.ty)
  | ⟨_, _, ty, .unary op operand⟩ =>
    SourceExprObeys live operand ∧
      R.Hold (live && (flowOfSourceExpr operand).behind) (.unary op operand.ty ty)
  | ⟨_, _, ty, .cast operand⟩ =>
    SourceExprObeys live operand ∧
      R.Hold (live && (flowOfSourceExpr operand).behind) (.cast operand.ty ty)
  | ⟨_, _, _, .call _ args⟩ => SourceArgsObey live args
  | ⟨_, _, _, .field base name⟩ => SourceExprObeys live base ∧ R.always (.field base.ty name)
  | ⟨_, _, ty, .data inits⟩ =>
    R.always (.data ty (inits.map Source.FieldInit.name)) ∧ SourceInitsObey live inits
  | ⟨_, _, ty, .ok value⟩ =>
    SourceExprObeys live value ∧
      R.Hold (live && (flowOfSourceExpr value).behind) (.result false value.ty ty)
  | ⟨_, _, ty, .err value⟩ =>
    SourceExprObeys live value ∧
      R.Hold (live && (flowOfSourceExpr value).behind) (.result true value.ty ty)
  | ⟨_, _, ty, .ifElse cond body none⟩ =>
    SourceExprObeys live cond ∧ R.Hold (live && (flowOfSourceExpr cond).behind) (.cond cond.ty) ∧
      SourceBlockObeys (live && (flowOfSourceExpr cond).behind) body ∧
      R.Hold (live && (flowOfSourceExpr cond).behind && (flowOfSourceBlock body).behind)
        (.value ty (sourceBlockType body)) ∧
      R.Hold (live && (flowOfSourceExpr cond).behind) (.value ty TypeTable.unit)
  | ⟨_, _, ty, .ifElse cond body (some otherwise)⟩ =>
    SourceExprObeys live cond ∧ R.Hold (live && (flowOfSourceExpr cond).behind) (.cond cond.ty) ∧
      SourceBlockObeys (live && (flowOfSourceExpr cond).behind) body ∧
      R.Hold (live && (flowOfSourceExpr cond).behind && (flowOfSourceBlock body).behind)
        (.value ty (sourceBlockType body)) ∧
      SourceExprObeys (live && (flowOfSourceExpr cond).behind) otherwise ∧
      R.Hold (live && (flowOfSourceExpr cond).behind && (flowOfSourceExpr otherwise).behind)
        (.value ty otherwise.ty)
  | ⟨_, _, ty, .matchOn scrutinee arms⟩ =>
    SourceExprObeys live scrutinee ∧
      SourceArmsObey (live && (flowOfSourceExpr scrutinee).behind) ty scrutinee.ty arms
  | ⟨_, _, ty, .block body⟩ =>
    SourceBlockObeys live body ∧
      R.Hold (live && (flowOfSourceBlock body).behind) (.tail ty (sourceBlockType body))
  | ⟨_, _, ty, .propagate value⟩ =>
    SourceExprObeys live value ∧
      R.Hold (live && (flowOfSourceExpr value).behind) (.propagate value.ty ty)

def SourceArgsObey (live : Bool) : List LoadedExpr → Prop
  | [] => True
  | arg :: rest =>
    SourceExprObeys live arg ∧ SourceArgsObey (live && (flowOfSourceExpr arg).behind) rest

def SourceInitsObey (live : Bool) : List (Source.FieldInit Nat Span Nat) → Prop
  | [] => True
  | ⟨_, value⟩ :: rest =>
    SourceExprObeys live value ∧ SourceInitsObey (live && (flowOfSourceExpr value).behind) rest

def SourceArmsObey (live : Bool) (ty scrutinee : Nat) : List (Source.Arm Nat Span Nat) → Prop
  | [] => True
  | ⟨pattern, body, _⟩ :: rest =>
    SourcePatternObeys R types Γ scrutinee pattern ∧
      R.Hold live (.pattern (sourceShapeOf pattern) scrutinee live) ∧ SourceExprObeys live body ∧
      R.Hold (live && (flowOfSourceExpr body).behind) (.value ty body.ty) ∧
      SourceArmsObey (live && decide (sourceShapeOf pattern ≠ .any)) ty scrutinee rest

end

/-- A function of the source keeps to the rules. -/
structure FunctionObeys (params : List (Source.Param Nat Span)) (body : LoadedBlock) : Prop where
  params : ∀ param ∈ params, Introduces R Γ param.ty param.binding param.mutable
  block : SourceBlockObeys R types Γ true body
  tail : R.Hold (flowOfSourceBlock body).behind (.ret (body.tail.map Source.Expr.ty))

end Source

end SsaLowering.Proofs
