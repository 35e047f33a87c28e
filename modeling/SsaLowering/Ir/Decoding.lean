import SsaLowering.Ir.Encoding

/-!
# The binary form of modules: reading

Reading undoes writing. A byte string that is no binary module is refused with the reason and the
offset at which reading stopped; in a module that is accepted, no reference inside a function
points outside the arenas of the function.
-/

namespace SsaLowering.Ir

inductive DecodeError where
  | badMagic
  | unsupportedVersion (version : Nat)
  | unexpectedEnd (offset : Nat)
  | invalidTag (what : String) (tag : Nat) (offset : Nat)
  | invalidUtf8 (offset : Nat)
  | invalidSpan (start stop : Nat)
  | danglingReference (function : String) (what : String)
  | trailingBytes (count : Nat)
  deriving DecidableEq, Repr

namespace DecodeError

def message : DecodeError → String
  | badMagic => "not a kiln IR file"
  | unsupportedVersion version =>
    "unsupported IR version " ++ toString version ++ ", expected " ++ toString Encoding.version
  | unexpectedEnd offset => "unexpected end of input at byte " ++ toString offset
  | invalidTag what tag offset =>
    "invalid " ++ what ++ " tag " ++ toString tag ++ " at byte " ++ toString offset
  | invalidUtf8 offset => "invalid UTF-8 string at byte " ++ toString offset
  | invalidSpan start stop => "invalid span " ++ toString start ++ ".." ++ toString stop
  | danglingReference function what =>
    "function `" ++ function ++ "` refers to a " ++ what ++ " that does not exist"
  | trailingBytes count => toString count ++ " trailing bytes after the module"

end DecodeError

namespace Decoding

/-- What is left to read, and how much was read before it. -/
structure Cursor where
  rest : List UInt8
  offset : Nat := 0
  deriving DecidableEq, Repr

abbrev Reader := StateT Cursor (Except DecodeError)

def offset : Reader Nat :=
  return (← get).offset

def take (count : Nat) : Reader (List UInt8) := do
  let cursor ← get
  let front := cursor.rest.take count
  if front.length < count then throw (.unexpectedEnd cursor.offset)
  set ({ rest := cursor.rest.drop count, offset := cursor.offset + count } : Cursor)
  return front

def numberOf : List UInt8 → Nat
  | [] => 0
  | b :: rest => b.toNat + 256 * numberOf rest

def number (width : Nat) : Reader Nat :=
  return numberOf (← take width)

def byte : Reader Nat :=
  number 1

def word : Reader Nat :=
  number 4

def long : Reader UInt64 :=
  return UInt64.ofNat (← number 8)

/-- A choice by its tag; `what` names the kind of choice where there is no such tag. -/
def choice {α : Type} (what : String) (all : List α) : Reader α := do
  let start ← offset
  let tag ← byte
  match all[tag]? with
  | some item => return item
  | none => throw (.invalidTag what tag start)

def bool : Reader Bool :=
  choice "bool" [false, true]

def repeated {α : Type} (element : Reader α) : Nat → Reader (List α)
  | 0 => return []
  | count + 1 => return (← element) :: (← repeated element count)

def sequence {α : Type} (element : Reader α) : Reader (List α) := do
  repeated element (← word)

def text : Reader String := do
  let length ← word
  let start ← offset
  let bytes ← take length
  match String.fromUTF8? ⟨bytes.toArray⟩ with
  | some content => return content
  | none => throw (.invalidUtf8 start)

def value : Reader Value :=
  return ⟨← word⟩

def values : Reader (List Value) :=
  sequence value

def block : Reader Block :=
  return ⟨← word⟩

def optionalBlock : Reader (Option Block) := do
  match ← word with
  | 0 => return none
  | id + 1 => return some ⟨id⟩

def span : Reader Span := do
  let start ← word
  let stop ← word
  match Span.ofBounds? start stop with
  | some result => return result
  | none => throw (.invalidSpan start stop)

def ty : Reader Ty := do
  let start ← offset
  match ← byte with
  | 0 => return .void
  | 1 => return .i1
  | 2 => return .i64
  | 3 => return .f64
  | 4 => return .ptr
  | 5 => return .agg (← word)
  | tag => throw (.invalidTag "type" tag start)

def layout : Reader Layout := do
  let name ← text
  let kind ← choice "aggregate kind" Encoding.layoutKinds
  let fields ← sequence ty
  return { name, kind, fields }

def constant : Reader Constant := do
  let start ← offset
  match ← byte with
  | 0 => return .zero
  | 1 => return .int (← long).toInt64
  | 2 => return .float (← long)
  | 3 => return .bool (← bool)
  | 4 => return .str (← text)
  | tag => throw (.invalidTag "constant" tag start)

def global : Reader Global := do
  let name ← text
  let type ← ty
  let init ← constant
  return { name, ty := type, init }

def inst : Reader Inst := do
  let start ← offset
  match ← byte with
  | 0 => return .iconst (← long).toInt64
  | 1 => return .fconst (← long)
  | 2 => return .bconst (← bool)
  | 3 => return .sconst (← text)
  | 4 => return .undef (← ty)
  | 5 => return .param (← ty) (← word)
  | 6 => return .binary (← choice "binary op" BinaryOp.all) (← ty) (← value) (← value)
  | 7 => return .unary (← choice "unary op" UnaryOp.all) (← ty) (← value)
  | 8 => return .icmp (← choice "icmp predicate" IntPredicate.all) (← value) (← value)
  | 9 => return .fcmp (← choice "fcmp predicate" FloatPredicate.all) (← value) (← value)
  | 10 => return .cast (← choice "cast op" CastOp.all) (← ty) (← value)
  | 11 => return .alloca (← ty) (← bool)
  | 12 => return .load (← ty) (← value)
  | 13 => return .store (← value) (← value)
  | 14 => return .fieldPtr (← word) (← value) (← word)
  | 15 => return .new (← word)
  | 16 => return .globalAddr (← text)
  | 17 => return .makeAgg (← word) (← values)
  | 18 => return .extractField (← ty) (← value) (← word)
  | 19 => return .call (← ty) (← text) (← values)
  | 20 => return .phi (← ty) (← values)
  | 21 => return .br (← block)
  | 22 => return .condBr (← value) (← block) (← block)
  | 23 => if ← bool then return .ret (some (← value)) else return .ret none
  | 24 => return .unreachable
  | tag => throw (.invalidTag "instruction" tag start)

def valueInfo : Reader ValueInfo := do
  let code ← inst
  let owner ← optionalBlock
  let place ← span
  let node ← word
  return { inst := code, block := owner, span := place, node }

def blockInfo : Reader BlockInfo := do
  let name ← text
  let preds ← sequence block
  let insts ← values
  return { name, preds, insts }

def tag : Reader Tag := do
  let key ← text
  let content ← text
  return { key, text := content }

def tagged : Reader (Value × List Tag) :=
  return (← value, ← sequence tag)

/-- Puts the tags of a value in their place, in front of or instead of tags read before. -/
def insertTags (tags : List (Value × List Tag)) (entry : Value × List Tag) :
    List (Value × List Tag) :=
  match tags with
  | [] => [entry]
  | other :: rest =>
    if entry.1 = other.1 then entry :: rest
    else if entry.1.id < other.1.id then entry :: other :: rest
    else other :: insertTags rest entry

/-- The first reference of a function that points outside its arenas. -/
def dangling? (function : Function) : Option String :=
  let valueOk (value : Value) := function.values.holds value.id
  let blockOk (block : Block) := function.blocks.holds block.id
  let ofValue (info : ValueInfo) : Option String :=
    if !info.inst.operands.all valueOk then some "value"
    else if !info.inst.successors.all blockOk || !info.block.all blockOk then some "block"
    else none
  let ofBlock (info : BlockInfo) : Option String :=
    if !info.preds.all blockOk then some "block"
    else if !info.insts.all valueOk then some "value"
    else none
  (function.values.toList.findSome? ofValue).or <|
    (function.blocks.toList.findSome? ofBlock).or <|
      if !function.params.all valueOk || !(function.tags.map Prod.fst).all valueOk then
        some "value"
      else if !function.layout.all blockOk then some "block"
      else none

def function : Reader Function := do
  let name ← text
  let ret ← ty
  let place ← span
  let node ← word
  let valueInfos ← sequence valueInfo
  let blockInfos ← sequence blockInfo
  let params ← values
  let layout ← sequence block
  let tags ← sequence tagged
  let result : Function :=
    { name, ret, span := place, node, params, layout
      values := valueInfos.toArray
      blocks := blockInfos.toArray
      tags := tags.foldl insertTags [] }
  match dangling? result with
  | some what => throw (.danglingReference name what)
  | none => return result

/-- The parts of a module; layouts are interned in the order in which they are read. -/
def body : Reader Module := do
  let name ← text
  let layouts ← sequence layout
  let globals ← sequence global
  let functions ← sequence function
  return { name, types := .ofList layouts, globals := globals.toArray
           functions := functions.toArray }

def module : Reader Module := do
  if (← take Encoding.magic.length) ≠ Encoding.magic then throw .badMagic
  let version ← number 2
  if version ≠ Encoding.version then throw (.unsupportedVersion version)
  body

end Decoding

def Module.decode (bytes : List UInt8) : Except DecodeError Module := do
  let (result, cursor) ← Decoding.module.run { rest := bytes }
  match cursor.rest.length with
  | 0 => return result
  | count => throw (.trailingBytes count)

end SsaLowering.Ir
