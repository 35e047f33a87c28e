import SsaLowering.Json.Reading
import SsaLowering.Json.Record
import SsaLowering.Source.Tree

/-!
# Reading a written tree

How a tree is written as JSON: statements, expressions, types, patterns and items are choices,
everything else is a record. No more than 127 brackets may be open at once, not counting those in
members that are ignored.
-/

namespace SsaLowering.Source

open SsaLowering.Json

def nestingLimit : Nat :=
  127

/-- Reads one of some alternatives without content. -/
def decodeOneOf {α : Type} (alternatives : List α) (key : α → String) : Decoder α :=
  fun room json => do
    let choice ← choice? room json
    choice.bare (← alternatives.find? (key · = choice.name))

def decodeBounds : Decoder Bounds :=
  nullable (pairOf (plain word?))

def decodeBool : Decoder Bool :=
  plain bool?

def decodeText : Decoder String :=
  plain text?

def decodeWord : Decoder Nat :=
  plain word?

def decodeType : Nat → Decoder TypeName
  | 0 => fun _ _ => none
  | depth + 1 => fun room json => do
    let choice ← choice? room json
    match choice.name with
    | "unit" => choice.bare .unit
    | "bool" => choice.bare .bool
    | "int" => choice.bare .int
    | "float" => choice.bare .float
    | "str" => choice.bare .str
    | "never" => choice.bare .never
    | "data" => return .data (← choice.read decodeText)
    | "result" =>
      let fields ← choice.read (fields? ["ok", "err"])
      return .result (← fields.required 0 (decodeType depth))
        (← fields.required 1 (decodeType depth))
    | _ => none

def decodeBinding : Decoder Binding := fun room json => do
  let fields ← fields? ["binding", "name", "mutable"] room json
  return {
    binding := ← fields.required 0 decodeWord
    name := ← fields.required 1 decodeText
    mutable := ← fields.defaulted 2 false decodeBool }

def decodePattern : Decoder Pattern := fun room json => do
  let choice ← choice? room json
  match choice.name with
  | "wildcard" => choice.bare .wildcard
  | "bind" => return .bind (← choice.read decodeBinding)
  | "int" => return .int (← choice.read (plain int64?))
  | "bool" => return .bool (← choice.read decodeBool)
  | "ok" => return .ok (← choice.read (nullable decodeBinding))
  | "err" => return .err (← choice.read (nullable decodeBinding))
  | _ => none

mutual

def decodeBlock : Nat → Decoder (Block TypeName Bounds Unit)
  | 0 => fun _ _ => none
  | depth + 1 => fun room json => do
    let fields ← fields? ["stmts", "tail", "span"] room json
    return {
      node := ()
      stmts := ← fields.defaulted 0 [] (listOf (decodeStmt depth))
      tail := ← fields.defaulted 1 none (nullable (decodeExpr depth))
      span := ← fields.defaulted 2 none decodeBounds }

def decodeStmt : Nat → Decoder (Stmt TypeName Bounds Unit)
  | 0 => fun _ _ => none
  | depth + 1 => fun room json => do
    let fields ← fields? ["kind", "span"] room json
    return {
      node := ()
      kind := ← fields.required 0 (decodeStmtKind depth)
      span := ← fields.defaulted 1 none decodeBounds }

def decodeStmtKind : Nat → Decoder (StmtKind TypeName Bounds Unit)
  | 0 => fun _ _ => none
  | depth + 1 => fun room json => do
    let choice ← choice? room json
    match choice.name with
    | "let" =>
      let fields ← choice.read
        (fields? ["binding", "name", "mutable", "captured", "ty", "init"])
      return .letVar (← fields.required 0 decodeWord) (← fields.required 1 decodeText)
        (← fields.defaulted 2 false decodeBool) (← fields.defaulted 3 false decodeBool)
        (← fields.required 4 (decodeType nestingLimit))
        (← fields.defaulted 5 none (nullable (decodeExpr depth)))
    | "assign" =>
      let fields ← choice.read (fields? ["target", "op", "value"])
      return .assign (← fields.required 0 (decodeExpr depth))
        (← fields.defaulted 1 none (nullable (decodeOneOf BinaryOp.all BinaryOp.key)))
        (← fields.required 2 (decodeExpr depth))
    | "expr" => return .expr (← choice.read (decodeExpr depth))
    | "return" => return .ret (← choice.read (nullable (decodeExpr depth)))
    | "if" =>
      let fields ← choice.read (fields? ["cond", "then", "otherwise"])
      return .ifElse (← fields.required 0 (decodeExpr depth))
        (← fields.required 1 (decodeBlock depth))
        (← fields.defaulted 2 none (nullable (decodeElse depth)))
    | "while" =>
      let fields ← choice.read (fields? ["cond", "body"])
      return .whileLoop (← fields.required 0 (decodeExpr depth))
        (← fields.required 1 (decodeBlock depth))
    | "loop" =>
      let fields ← choice.read (fields? ["body"])
      return .loop (← fields.required 0 (decodeBlock depth))
    | "for" =>
      let fields ← choice.read
        (fields? ["binding", "name", "start", "end", "inclusive", "body"])
      return .forRange (← fields.required 0 decodeWord) (← fields.required 1 decodeText)
        (← fields.required 2 (decodeExpr depth)) (← fields.required 3 (decodeExpr depth))
        (← fields.defaulted 4 false decodeBool) (← fields.required 5 (decodeBlock depth))
    | "break" => choice.bare .breakLoop
    | "continue" => choice.bare .continueLoop
    | _ => none

def decodeElse : Nat → Decoder (Else TypeName Bounds Unit)
  | 0 => fun _ _ => none
  | depth + 1 => fun room json => do
    let choice ← choice? room json
    match choice.name with
    | "block" => return .block (← choice.read (decodeBlock depth))
    | "if" => return .chain (← choice.read (decodeStmt depth))
    | _ => none

def decodeExpr : Nat → Decoder (Expr TypeName Bounds Unit)
  | 0 => fun _ _ => none
  | depth + 1 => fun room json => do
    let fields ← fields? ["kind", "ty", "span"] room json
    return {
      node := ()
      kind := ← fields.required 0 (decodeExprKind depth)
      ty := ← fields.required 1 (decodeType nestingLimit)
      span := ← fields.defaulted 2 none decodeBounds }

def decodeExprKind : Nat → Decoder (ExprKind TypeName Bounds Unit)
  | 0 => fun _ _ => none
  | depth + 1 => fun room json => do
    let choice ← choice? room json
    match choice.name with
    | "int" => return .literal (.int (← choice.read (plain int64?)))
    | "float" => return .literal (.float (← choice.read (plain double?)))
    | "bool" => return .literal (.bool (← choice.read decodeBool))
    | "str" => return .literal (.str (← choice.read decodeText))
    | "unit" => choice.bare (.literal .unit)
    | "local" =>
      let fields ← choice.read (fields? ["binding", "name"])
      return .localVar (← fields.required 0 decodeWord) (← fields.required 1 decodeText)
    | "global" => return .globalVar (← choice.read decodeText)
    | "binary" =>
      let fields ← choice.read (fields? ["op", "lhs", "rhs"])
      return .binary (← fields.required 0 (decodeOneOf BinaryOp.all BinaryOp.key))
        (← fields.required 1 (decodeExpr depth)) (← fields.required 2 (decodeExpr depth))
    | "unary" =>
      let fields ← choice.read (fields? ["op", "operand"])
      return .unary (← fields.required 0 (decodeOneOf UnaryOp.all UnaryOp.key))
        (← fields.required 1 (decodeExpr depth))
    | "cast" => return .cast (← choice.read (decodeExpr depth))
    | "call" =>
      let fields ← choice.read (fields? ["callee", "args"])
      return .call (← fields.required 0 decodeText)
        (← fields.defaulted 1 [] (listOf (decodeExpr depth)))
    | "field" =>
      let fields ← choice.read (fields? ["base", "field"])
      return .field (← fields.required 0 (decodeExpr depth)) (← fields.required 1 decodeText)
    | "data" => return .data (← choice.read (listOf (decodeFieldInit depth)))
    | "ok" => return .ok (← choice.read (decodeExpr depth))
    | "err" => return .err (← choice.read (decodeExpr depth))
    | "if" =>
      let fields ← choice.read (fields? ["cond", "then", "otherwise"])
      return .ifElse (← fields.required 0 (decodeExpr depth))
        (← fields.required 1 (decodeBlock depth))
        (← fields.defaulted 2 none (nullable (decodeExpr depth)))
    | "match" =>
      let fields ← choice.read (fields? ["scrutinee", "arms"])
      return .matchOn (← fields.required 0 (decodeExpr depth))
        (← fields.required 1 (listOf (decodeArm depth)))
    | "block" => return .block (← choice.read (decodeBlock depth))
    | "try" => return .propagate (← choice.read (decodeExpr depth))
    | _ => none

def decodeFieldInit : Nat → Decoder (FieldInit TypeName Bounds Unit)
  | 0 => fun _ _ => none
  | depth + 1 => fun room json => do
    let fields ← fields? ["name", "value"] room json
    return {
      name := ← fields.required 0 decodeText
      value := ← fields.required 1 (decodeExpr depth) }

def decodeArm : Nat → Decoder (Arm TypeName Bounds Unit)
  | 0 => fun _ _ => none
  | depth + 1 => fun room json => do
    let fields ← fields? ["pattern", "body", "span"] room json
    return {
      pattern := ← fields.required 0 decodePattern
      body := ← fields.required 1 (decodeExpr depth)
      span := ← fields.defaulted 2 none decodeBounds }

end

def decodeParam : Decoder (Param TypeName Bounds) := fun room json => do
  let fields ← fields? ["binding", "name", "ty", "mutable", "span"] room json
  return {
    binding := ← fields.required 0 decodeWord
    name := ← fields.required 1 decodeText
    ty := ← fields.required 2 (decodeType nestingLimit)
    mutable := ← fields.defaulted 3 false decodeBool
    span := ← fields.defaulted 4 none decodeBounds }

def decodeItem : Decoder (Item TypeName Bounds Unit) := fun room json => do
  let choice ← choice? room json
  match choice.name with
  | "function" =>
    let fields ← choice.read (fields? ["name", "params", "ret", "body", "span"])
    return {
      node := ()
      name := ← fields.required 0 decodeText
      kind := .function (← fields.defaulted 1 [] (listOf decodeParam))
        (← fields.required 2 (decodeType nestingLimit))
        (← fields.defaulted 3 none (nullable (decodeBlock nestingLimit)))
      span := ← fields.defaulted 4 none decodeBounds }
  | "global" =>
    let fields ← choice.read (fields? ["name", "ty", "mutable", "init", "span"])
    return {
      node := ()
      name := ← fields.required 0 decodeText
      kind := .global (← fields.required 1 (decodeType nestingLimit))
        (← fields.defaulted 2 false decodeBool)
        (← fields.defaulted 3 none (nullable (decodeExpr nestingLimit)))
      span := ← fields.defaulted 4 none decodeBounds }
  | _ => none

def decodeFieldDecl : Decoder (String × TypeName) := fun room json => do
  let fields ← fields? ["name", "ty"] room json
  return (← fields.required 0 decodeText, ← fields.required 1 (decodeType nestingLimit))

def decodeData : Decoder DataDecl := fun room json => do
  let fields ← fields? ["name", "fields"] room json
  return {
    name := ← fields.required 0 decodeText
    fields := ← fields.required 1 (listOf decodeFieldDecl) }

def Tree.ofJson? (json : Json) : Option Tree := do
  let fields ← fields? ["name", "data", "items"] nestingLimit json
  return {
    name := ← fields.required 0 decodeText
    datas := ← fields.defaulted 1 [] (listOf decodeData)
    items := ← fields.required 2 (listOf decodeItem) }

def Tree.ofText? (text : String) : Option Tree :=
  (Json.read? text).bind ofJson?

end SsaLowering.Source
