import SsaLowering.Decimal.Format
import SsaLowering.Ir.Function
import SsaLowering.Text.Quoted

/-!
# Listings

The human-readable form of modules, functions and instructions.
-/

namespace SsaLowering.Ir

def commaSeparated (items : List String) : String :=
  String.intercalate ", " items

def renderBool (value : Bool) : String :=
  if value then "true" else "false"

namespace Constant

def render : Constant → String
  | zero => "zeroinit"
  | int value => toString value.toInt
  | float bits => Decimal.render bits
  | bool value => renderBool value
  | str text => Text.quote text

end Constant

namespace Inst

/-- The arguments of a phi, each with the predecessor it comes from, or a question mark where the
block has no such predecessor. -/
def renderIncoming (args : List Value) (preds : List Block) : String :=
  commaSeparated (args.mapIdx fun position arg =>
    "[" ++ arg.render ++ ", " ++ ((preds[position]?).map Block.render).getD "?" ++ "]")

/-- An instruction as text, without the name of its value. The predecessors are those of its
block, and `tyOf` gives the types of values. -/
def render (tyOf : Value → Ty) (preds : List Block) : Inst → String
  | iconst value => "iconst i64 " ++ toString value.toInt
  | fconst bits => "fconst f64 " ++ Decimal.render bits
  | bconst value => "bconst " ++ renderBool value
  | sconst text => "sconst " ++ Text.quote text
  | undef ty => "undef " ++ ty.render
  | param ty position => "param " ++ ty.render ++ " " ++ toString position
  | binary op ty lhs rhs =>
    op.name ++ " " ++ ty.render ++ " " ++ lhs.render ++ ", " ++ rhs.render
  | unary op ty operand => op.name ++ " " ++ ty.render ++ " " ++ operand.render
  | icmp predicate lhs rhs => "icmp " ++ predicate.name ++ " " ++ lhs.render ++ ", " ++ rhs.render
  | fcmp predicate lhs rhs => "fcmp " ++ predicate.name ++ " " ++ lhs.render ++ ", " ++ rhs.render
  | cast op target operand => op.name ++ " " ++ operand.render ++ " to " ++ target.render
  | alloca ty pinned => "alloca " ++ (if pinned then "pinned " else "") ++ ty.render
  | load ty address => "load " ++ ty.render ++ ", " ++ address.render
  | store address stored => "store " ++ stored.render ++ ", " ++ address.render
  | fieldPtr agg address position =>
    "getfieldptr " ++ Ty.aggName agg ++ ", " ++ address.render ++ ", " ++ toString position
  | new agg => "new " ++ Ty.aggName agg
  | globalAddr name => "globaladdr @" ++ name
  | makeAgg agg fields =>
    "makeagg " ++ Ty.aggName agg ++ " [" ++ commaSeparated (fields.map Value.render) ++ "]"
  | extractField ty aggregate position =>
    "extractfield " ++ ty.render ++ " " ++ aggregate.render ++ ", " ++ toString position
  | call ty callee args =>
    "call " ++ ty.render ++ " @" ++ callee ++ "(" ++ commaSeparated (args.map Value.render) ++ ")"
  | phi ty args =>
    "phi " ++ ty.render ++ (if args.isEmpty then "" else " " ++ renderIncoming args preds)
  | br target => "br " ++ target.render
  | condBr condition thenBlock elseBlock =>
    "br_cond " ++ condition.render ++ ", " ++ thenBlock.render ++ ", " ++ elseBlock.render
  | ret (some value) => "ret " ++ (tyOf value).render ++ " " ++ value.render
  | ret none => "ret void"
  | unreachable => "unreachable"

end Inst

def Tag.render (tag : Tag) : String :=
  " !" ++ tag.key ++ "=" ++ Text.quote tag.text

namespace Function

/-- The line of one instruction. Parameters have none: the head of the function names them. -/
def renderValue (function : Function) (preds : List Block) (value : Value) : String :=
  match function.inst? value with
  | none | some (.param ..) => ""
  | some inst =>
    "  " ++ (if inst.ty = .void then "" else value.render ++ " = ")
      ++ inst.render function.ty preds
      ++ String.join ((function.tagsOf value).map Tag.render) ++ "\n"

def renderBlock (function : Function) (block : Block) : String :=
  match function.block? block with
  | none => ""
  | some info =>
    block.render ++ ": ; " ++ info.name
      ++ (if info.preds.isEmpty then ""
          else ", preds: " ++ commaSeparated (info.preds.map Block.render))
      ++ "\n" ++ String.join (info.insts.map (function.renderValue info.preds))

def render (function : Function) : String :=
  if function.isDeclaration then
    "declare " ++ function.ret.render ++ " @" ++ function.name ++ "("
      ++ commaSeparated (function.params.map fun param => (function.ty param).render) ++ ")\n"
  else
    "define " ++ function.ret.render ++ " @" ++ function.name ++ "("
      ++ commaSeparated (function.params.map fun param =>
          (function.ty param).render ++ " " ++ param.render)
      ++ ") \x7b\n" ++ String.join (function.layout.map function.renderBlock) ++ "\x7d\n"

end Function

def Global.render (global : Global) : String :=
  "@" ++ global.name ++ " = global " ++ global.ty.render ++ " " ++ global.init.render ++ "\n"

def Module.render (module : Module) : String :=
  "; module " ++ module.name ++ "\n"
    ++ String.join (module.types.layouts.toList.mapIdx fun id layout =>
        "type " ++ Ty.aggName id ++ " = " ++ layout.render ++ "\n")
    ++ String.join (module.globals.toList.map Global.render)
    ++ String.join (module.functions.toList.map fun function => "\n" ++ function.render)

end SsaLowering.Ir
