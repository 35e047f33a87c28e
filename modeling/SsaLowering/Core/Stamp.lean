import SsaLowering.Core.Body
import SsaLowering.Core.Digest

/-!
# Stamps

A stamp covers a core body and, through the fingerprint of its program, all else that lowering it
depends on: the static types and the signatures of all items. What a stamp covers is written as
a list of atoms. In a fingerprint the fields of a data type, the parameters of a function and the
items follow each other without their number in front.
-/

namespace SsaLowering.Core

open SsaLowering.Source

def typeAtoms (types : TypeTable) : StaticType → List Atom
  | .unit => [.nat 0]
  | .bool => [.nat 1]
  | .int => [.nat 2]
  | .float => [.nat 3]
  | .str => [.nat 4]
  | .never => [.nat 5]
  | .data id =>
    let data := (types.data? id).getD { name := "" }
    [.nat 6, .nat id, .text data.name] ++
      data.fields.flatMap fun (name, ty) => [.text name, .nat ty]
  | .result ok err => [.nat 7, .nat ok, .nat err]

def signatureAtoms (item : LoadedItem) : List Atom :=
  .text item.name :: match item.kind with
    | .function params ret body =>
      .nat 0 :: params.map (fun param => .nat param.ty) ++ [.nat ret, .bool body.isSome]
    | .global ty mutable _ => [.nat 1, .nat ty, .bool mutable]

def fingerprintAtoms (program : Program) : List Atom :=
  .nat program.types.size ::
    (Arena.entries program.types.types).flatMap (fun (id, ty) => .nat id :: typeAtoms program.types ty)
    ++ program.items.flatMap signatureAtoms

def fingerprint (digest : Digest) (program : Program) : Stamp :=
  digest (fingerprintAtoms program)

def originAtoms (node : Nat) (span : Span) : List Atom :=
  [.nat node, .nat span.start, .nat span.stop]

def literalAtoms : Literal → List Atom
  | .int value => [.nat 0, .number value.toUInt64]
  | .float bits => [.nat 1, .number bits]
  | .bool value => [.nat 2, .bool value]
  | .str text => [.nat 3, .text text]
  | .unit => [.nat 4]

def optionalLocalAtoms : Option Local → List Atom
  | none => [.nat 0]
  | some var => [.nat 1, .nat var.id]

def patternAtoms : Pattern → List Atom
  | .wildcard => [.nat 0]
  | .bind var => [.nat 1, .nat var.id]
  | .int value => [.nat 2, .number value.toUInt64]
  | .bool value => [.nat 3, .bool value]
  | .ok var => .nat 4 :: optionalLocalAtoms var
  | .err var => .nat 5 :: optionalLocalAtoms var

def binaryOpNumber : BinaryOp → Nat
  | .add => 0 | .sub => 1 | .mul => 2 | .div => 3 | .rem => 4
  | .bitAnd => 5 | .bitOr => 6 | .bitXor => 7 | .shl => 8 | .shr => 9
  | .eq => 10 | .ne => 11 | .lt => 12 | .le => 13 | .gt => 14 | .ge => 15

def unaryOpNumber : UnaryOp → Nat
  | .neg => 0
  | .not => 1

mutual

def blockAtoms : Block → List Atom
  | ⟨node, span, stmts, tail⟩ =>
    .nat stmts.length :: stmtsAtoms stmts ++ optionalExprAtoms tail ++ originAtoms node span

def stmtsAtoms : List Stmt → List Atom
  | [] => []
  | stmt :: rest => stmtAtoms stmt ++ stmtsAtoms rest

def stmtAtoms : Stmt → List Atom
  | ⟨node, span, .letVar var init⟩ =>
    .nat 0 :: .nat var.id :: optionalExprAtoms init ++ originAtoms node span
  | ⟨node, span, .assign place value⟩ =>
    .nat 1 :: placeAtoms place ++ exprAtoms value ++ originAtoms node span
  | ⟨node, span, .expr value⟩ => .nat 2 :: exprAtoms value ++ originAtoms node span
  | ⟨node, span, .ret value⟩ => .nat 3 :: optionalExprAtoms value ++ originAtoms node span
  | ⟨node, span, .breakLoop⟩ => .nat 4 :: originAtoms node span
  | ⟨node, span, .continueLoop⟩ => .nat 5 :: originAtoms node span
  | ⟨node, span, .loop cond body step⟩ =>
    .nat 6 :: optionalExprAtoms cond ++ blockAtoms body ++ optionalBlockAtoms step ++
      originAtoms node span

def optionalBlockAtoms : Option Block → List Atom
  | none => [.nat 0]
  | some block => .nat 1 :: blockAtoms block

def placeAtoms : Place → List Atom
  | .localVar var => [.nat 0, .nat var.id]
  | .globalVar name => [.nat 1, .text name]
  | .field base index => .nat 2 :: exprAtoms base ++ [.nat index]

def optionalExprAtoms : Option Expr → List Atom
  | none => [.nat 0]
  | some expr => .nat 1 :: exprAtoms expr

def exprAtoms : Expr → List Atom
  | ⟨node, span, ty, kind⟩ => exprKindAtoms kind ++ .nat ty :: originAtoms node span

def exprKindAtoms : ExprKind → List Atom
  | .literal value => .nat 0 :: literalAtoms value
  | .localVar var => [.nat 1, .nat var.id]
  | .globalVar name => [.nat 2, .text name]
  | .binary op lhs rhs => .nat 3 :: .nat (binaryOpNumber op) :: exprAtoms lhs ++ exprAtoms rhs
  | .unary op operand => .nat 4 :: .nat (unaryOpNumber op) :: exprAtoms operand
  | .cast operand => .nat 5 :: exprAtoms operand
  | .call callee args => .nat 6 :: .text callee :: .nat args.length :: exprsAtoms args
  | .field base index => .nat 7 :: exprAtoms base ++ [.nat index]
  | .data inits => .nat 8 :: .nat inits.length :: initsAtoms inits
  | .ok value => .nat 9 :: exprAtoms value
  | .err value => .nat 10 :: exprAtoms value
  | .ifElse cond body otherwise =>
    .nat 11 :: exprAtoms cond ++ blockAtoms body ++ blockAtoms otherwise
  | .matchOn scrutinee arms =>
    .nat 12 :: exprAtoms scrutinee ++ .nat arms.length :: armsAtoms arms
  | .block body => .nat 13 :: blockAtoms body
  | .propagate value => .nat 14 :: exprAtoms value

def exprsAtoms : List Expr → List Atom
  | [] => []
  | expr :: rest => exprAtoms expr ++ exprsAtoms rest

def initsAtoms : List FieldInit → List Atom
  | [] => []
  | ⟨index, value⟩ :: rest => .nat index :: exprAtoms value ++ initsAtoms rest

def armsAtoms : List Arm → List Atom
  | [] => []
  | ⟨pattern, body, span⟩ :: rest =>
    patternAtoms pattern ++ exprAtoms body ++ [.nat span.start, .nat span.stop] ++ armsAtoms rest

end

def localAtoms (decl : LocalDecl) : List Atom :=
  [.text decl.name, .nat decl.ty, .bool decl.mutable, .bool decl.captured]

/-- What the stamp of a body covers, the fingerprint apart. -/
def bodyAtoms (body : Body) : List Atom :=
  .text body.name :: Atom.list (fun var => [.nat var.id]) body.params ++
    .nat body.ret :: Atom.list localAtoms body.locals.toList ++ blockAtoms body.block ++
    originAtoms body.node body.span

def Body.stamp (digest : Digest) (fingerprint : Stamp) (body : Body) : Stamp :=
  digest (.number fingerprint :: bodyAtoms body)

end SsaLowering.Core
