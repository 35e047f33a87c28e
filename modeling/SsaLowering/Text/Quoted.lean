import SsaLowering.Text.Hidden

/-!
# Quoted text

Text between double quotes. A double quote and a backslash are escaped by a backslash, four
controls have a letter or digit of their own, and every other character without a visible form is
written by its code point in lower-case hexadecimal.
-/

namespace SsaLowering.Text

/-- The lower-case hexadecimal digits of a number, without leading zeros. -/
def hexDigits (n : Nat) : String :=
  String.ofList (Nat.toDigits 16 n)

def quoteChar (c : Char) : String :=
  if c = '"' then "\\\""
  else if c = '\\' then "\\\\"
  else if c = '\t' then "\\t"
  else if c = '\r' then "\\r"
  else if c = '\n' then "\\n"
  else if c = '\x00' then "\\0"
  else if isHidden c then "\\u\x7b" ++ hexDigits c.toNat ++ "\x7d"
  else c.toString

def quote (text : String) : String :=
  "\"" ++ String.join (text.toList.map quoteChar) ++ "\""

end SsaLowering.Text
