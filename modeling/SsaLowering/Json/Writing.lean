import SsaLowering.Json.Value

/-!
# Writing JSON

The text of a value, without blanks between its parts.
-/

namespace SsaLowering

def Decimal.Literal.render (literal : Decimal.Literal) : String :=
  let sign := if literal.negative then "-" else ""
  let fraction := match literal.fraction with
    | [] => ""
    | digits => "." ++ String.ofList digits
  let exponent := match literal.exponent with
    | none => ""
    | some exponent => "e" ++ toString exponent
  sign ++ String.ofList literal.whole ++ fraction ++ exponent

namespace Json

/-- A character inside a string. Control characters are escaped by number. -/
def escapeChar (c : Char) : List Char :=
  if c = '"' ∨ c = '\\' then ['\\', c]
  else if c.toNat < 32 then
    ['\\', 'u', '0', '0', Nat.digitChar (c.toNat / 16), Nat.digitChar (c.toNat % 16)]
  else [c]

/-- The text of a string. What stands for no text is written as the empty string. -/
def quote (content : Option String) : String :=
  "\"" ++ String.ofList ((content.getD "").toList.flatMap escapeChar) ++ "\""

mutual

def render : Json → String
  | .null => "null"
  | .bool true => "true"
  | .bool false => "false"
  | .number literal => literal.render
  | .string content => quote content
  | .array items => "[" ++ ",".intercalate (renderItems items) ++ "]"
  | .object members => "\x7b" ++ ",".intercalate (renderMembers members) ++ "\x7d"

def renderItems : List Json → List String
  | [] => []
  | item :: rest => render item :: renderItems rest

def renderMembers : List (Option String × Json) → List String
  | [] => []
  | (name, value) :: rest => (quote name ++ ":" ++ render value) :: renderMembers rest

end

end Json

end SsaLowering
