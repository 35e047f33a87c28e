import SsaLowering.Ir.Function

/-!
# The binary form of modules: writing

A module is written as a magic word, a version and its parts. Numbers are little-endian and of
fixed width, text and sequences follow their length, and every choice is led by a tag byte. The
tag of an operator is its place among the operators of its kind.
-/

namespace SsaLowering.Ir.Encoding

def number : (width n : Nat) → List UInt8
  | 0, _ => []
  | width + 1, n => UInt8.ofNat n :: number width (n / 256)

def byte (n : Nat) : List UInt8 :=
  number 1 n

/-- A 32-bit number: all lengths, positions and identifiers. -/
def word (n : Nat) : List UInt8 :=
  number 4 n

def long (n : UInt64) : List UInt8 :=
  number 8 n.toNat

def bool (value : Bool) : List UInt8 :=
  byte value.toNat

def sequence {α : Type} (element : α → List UInt8) (items : List α) : List UInt8 :=
  word items.length ++ items.flatMap element

def utf8 (text : String) : List UInt8 :=
  text.toUTF8.data.toList

def text (text : String) : List UInt8 :=
  word (utf8 text).length ++ utf8 text

/-- One of a fixed list of choices, by its place in the list. -/
def choice {α : Type} [BEq α] (all : List α) (item : α) : List UInt8 :=
  byte (all.idxOf item)

def value (value : Value) : List UInt8 :=
  word value.id

def values (values : List Value) : List UInt8 :=
  sequence value values

def block (block : Block) : List UInt8 :=
  word block.id

/-- A block that may be missing, as zero or one more than its number. -/
def optionalBlock : Option Block → List UInt8
  | none => word 0
  | some block => word (block.id + 1)

def span (span : Span) : List UInt8 :=
  word span.start ++ word span.stop

def ty : Ty → List UInt8
  | .void => byte 0
  | .i1 => byte 1
  | .i64 => byte 2
  | .f64 => byte 3
  | .ptr => byte 4
  | .agg id => byte 5 ++ word id

def layoutKinds : List LayoutKind :=
  [.data, .result]

def layout (layout : Layout) : List UInt8 :=
  text layout.name ++ choice layoutKinds layout.kind ++ sequence ty layout.fields

def constant : Constant → List UInt8
  | .zero => byte 0
  | .int value => byte 1 ++ long value.toUInt64
  | .float bits => byte 2 ++ long bits
  | .bool value => byte 3 ++ bool value
  | .str content => byte 4 ++ text content

def global (global : Global) : List UInt8 :=
  text global.name ++ ty global.ty ++ constant global.init

def inst : Inst → List UInt8
  | .iconst value => byte 0 ++ long value.toUInt64
  | .fconst bits => byte 1 ++ long bits
  | .bconst value => byte 2 ++ bool value
  | .sconst content => byte 3 ++ text content
  | .undef type => byte 4 ++ ty type
  | .param type position => byte 5 ++ ty type ++ word position
  | .binary op type lhs rhs => byte 6 ++ choice BinaryOp.all op ++ ty type ++ value lhs ++ value rhs
  | .unary op type operand => byte 7 ++ choice UnaryOp.all op ++ ty type ++ value operand
  | .icmp predicate lhs rhs =>
    byte 8 ++ choice IntPredicate.all predicate ++ value lhs ++ value rhs
  | .fcmp predicate lhs rhs =>
    byte 9 ++ choice FloatPredicate.all predicate ++ value lhs ++ value rhs
  | .cast op target operand => byte 10 ++ choice CastOp.all op ++ ty target ++ value operand
  | .alloca type pinned => byte 11 ++ ty type ++ bool pinned
  | .load type address => byte 12 ++ ty type ++ value address
  | .store address stored => byte 13 ++ value address ++ value stored
  | .fieldPtr agg address position => byte 14 ++ word agg ++ value address ++ word position
  | .new agg => byte 15 ++ word agg
  | .globalAddr name => byte 16 ++ text name
  | .makeAgg agg fields => byte 17 ++ word agg ++ values fields
  | .extractField type aggregate position => byte 18 ++ ty type ++ value aggregate ++ word position
  | .call type callee args => byte 19 ++ ty type ++ text callee ++ values args
  | .phi type args => byte 20 ++ ty type ++ values args
  | .br target => byte 21 ++ block target
  | .condBr condition thenBlock elseBlock =>
    byte 22 ++ value condition ++ block thenBlock ++ block elseBlock
  | .ret none => byte 23 ++ bool false
  | .ret (some result) => byte 23 ++ bool true ++ value result
  | .unreachable => byte 24

def valueInfo (info : ValueInfo) : List UInt8 :=
  inst info.inst ++ optionalBlock info.block ++ span info.span ++ word info.node

def blockInfo (info : BlockInfo) : List UInt8 :=
  text info.name ++ sequence block info.preds ++ values info.insts

def tag (tag : Tag) : List UInt8 :=
  text tag.key ++ text tag.text

def tagged (entry : Value × List Tag) : List UInt8 :=
  value entry.1 ++ sequence tag entry.2

def function (function : Function) : List UInt8 :=
  text function.name ++ ty function.ret ++ span function.span ++ word function.node
    ++ sequence valueInfo function.values.toList
    ++ sequence blockInfo function.blocks.toList
    ++ values function.params
    ++ sequence block function.layout
    ++ sequence tagged function.tags

def magic : List UInt8 :=
  [0x4B, 0x49, 0x4C, 0x4E, 0x49, 0x52, 0, 0]

def version : Nat :=
  1

def body (module : Module) : List UInt8 :=
  text module.name
    ++ sequence layout module.types.layouts.toList
    ++ sequence global module.globals.toList
    ++ sequence function module.functions.toList

end Encoding

def Module.encode (module : Module) : List UInt8 :=
  Encoding.magic ++ Encoding.number 2 Encoding.version ++ Encoding.body module

end SsaLowering.Ir
