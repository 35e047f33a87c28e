import SsaLowering.Decimal.Reading

/-!
# JSON values

A value keeps what its text says: the digits of a number, the order of the members of an object
and members of the same name.
-/

namespace SsaLowering

/-- A JSON value. A string, or the name of a member, is `none` if an escape in it names half of a
surrogate pair: it is written correctly but stands for no text. -/
inductive Json where
  | null
  | bool (value : Bool)
  | number (literal : Decimal.Literal)
  | string (content : Option String)
  | array (items : List Json)
  | object (members : List (Option String × Json))

namespace Json

def bool? : Json → Option Bool
  | .bool value => some value
  | _ => none

def text? : Json → Option String
  | .string content => content
  | _ => none

def int? : Json → Option Int
  | .number literal => literal.toInt?
  | _ => none

def intWithin? (least most : Int) (json : Json) : Option Int :=
  json.int?.filter fun value => least ≤ value ∧ value ≤ most

def word? (json : Json) : Option Nat :=
  (json.intWithin? 0 0xffffffff).map Int.toNat

def int64? (json : Json) : Option Int64 :=
  (json.intWithin? (-0x8000000000000000) 0x7fffffffffffffff).map Int64.ofInt

def double? : Json → Option UInt64
  | .number literal => literal.toBits?
  | _ => none

def items? : Json → Option (List Json)
  | .array items => some items
  | _ => none

def member? (name : String) : Json → Option Json
  | .object members => members.lookup (some name)
  | _ => none

end Json

end SsaLowering
