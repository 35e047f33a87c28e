import SsaLowering.Json.Value

/-!
# Reading JSON text

A strict reader: blanks are space, tab, line feed and carriage return, control characters in
strings must be escaped, numbers have no leading zeros, and nothing follows the value but blanks.
-/

namespace SsaLowering.Json

def isBlank (c : Char) : Bool :=
  c == ' ' || c == '\t' || c == '\n' || c == '\r'

def skipBlanks (text : List Char) : List Char :=
  text.dropWhile isBlank

def splitDigits (text : List Char) : List Char × List Char :=
  text.span Char.isDigit

/-- Reads the digits of a number in front of its point: one or more, zero only alone. -/
def readWhole (text : List Char) : Option (List Char × List Char) :=
  match splitDigits text with
  | ([], _) => none
  | ('0' :: _ :: _, _) => none
  | parts => some parts

/-- Reads the point of a number and the digits behind it, if it has a point. -/
def readFraction : List Char → Option (List Char × List Char)
  | '.' :: text =>
    match splitDigits text with
    | ([], _) => none
    | parts => some parts
  | text => some ([], text)

/-- Splits off the sign of an exponent; tells whether it is negative. -/
def splitSign : List Char → Bool × List Char
  | '-' :: text => (true, text)
  | '+' :: text => (false, text)
  | text => (false, text)

def readExponent : List Char → Option (Option Int × List Char)
  | c :: text =>
    if c == 'e' || c == 'E' then
      let (negative, text) := splitSign text
      match splitDigits text with
      | ([], _) => none
      | (digits, rest) =>
        let magnitude : Int :=
          digits.foldl (fun total c => total * 10 + Decimal.digitValue c) 0
        some (some (if negative then -magnitude else magnitude), rest)
    else some (none, c :: text)
  | [] => some (none, [])

def readNumber (text : List Char) : Option (Json × List Char) := do
  let (negative, text) := match text with
    | '-' :: rest => (true, rest)
    | _ => (false, text)
  let (whole, text) ← readWhole text
  let (fraction, text) ← readFraction text
  let (exponent, text) ← readExponent text
  return (.number { negative, whole, fraction, exponent }, text)

def hexValue? (c : Char) : Option Nat :=
  if '0' ≤ c ∧ c ≤ '9' then some (c.toNat - '0'.toNat)
  else if 'a' ≤ c ∧ c ≤ 'f' then some (c.toNat - 'a'.toNat + 10)
  else if 'A' ≤ c ∧ c ≤ 'F' then some (c.toNat - 'A'.toNat + 10)
  else none

/-- What a string is made of: characters, and code units written as escapes. -/
inductive Piece where
  | char (c : Char)
  | unit (code : Nat)
  deriving DecidableEq, Repr

def shortEscape? : Char → Option Char
  | '"' => some '"'
  | '\\' => some '\\'
  | '/' => some '/'
  | 'b' => some '\x08'
  | 'f' => some '\x0c'
  | 'n' => some '\n'
  | 'r' => some '\r'
  | 't' => some '\t'
  | _ => none

/-- Reads the rest of a string behind its opening quote; `pieces` are those read so far, latest
first. -/
def readPieces (pieces : List Piece) : List Char → Option (List Piece × List Char)
  | [] => none
  | '"' :: rest => some (pieces.reverse, rest)
  | '\\' :: 'u' :: a :: b :: c :: d :: rest => do
    let code := (((← hexValue? a) * 16 + (← hexValue? b)) * 16 + (← hexValue? c)) * 16
      + (← hexValue? d)
    readPieces (.unit code :: pieces) rest
  | '\\' :: c :: rest => do
    readPieces (.char (← shortEscape? c) :: pieces) rest
  | c :: rest =>
    if c.toNat < 0x20 || c == '\\' then none else readPieces (.char c :: pieces) rest

/-- The text that some pieces stand for; a surrogate must come in a pair. -/
def joinPieces (done : List Char) : List Piece → Option String
  | [] => some (String.ofList done.reverse)
  | .char c :: rest => joinPieces (c :: done) rest
  | .unit high :: .unit low :: rest =>
    if 0xD800 ≤ high ∧ high < 0xDC00 then
      if 0xDC00 ≤ low ∧ low < 0xE000 then
        joinPieces (Char.ofNat (0x10000 + (high - 0xD800) * 0x400 + (low - 0xDC00)) :: done) rest
      else none
    else if 0xDC00 ≤ high ∧ high < 0xE000 then none
    else joinPieces (Char.ofNat high :: done) (.unit low :: rest)
  | .unit code :: rest =>
    if 0xD800 ≤ code ∧ code < 0xE000 then none else joinPieces (Char.ofNat code :: done) rest

def readString (text : List Char) : Option (Option String × List Char) := do
  let (pieces, rest) ← readPieces [] text
  return (joinPieces [] pieces, rest)

mutual

def readValue : Nat → List Char → Option (Json × List Char)
  | 0, _ => none
  | fuel + 1, text =>
    match skipBlanks text with
    | 'n' :: 'u' :: 'l' :: 'l' :: rest => some (.null, rest)
    | 't' :: 'r' :: 'u' :: 'e' :: rest => some (.bool true, rest)
    | 'f' :: 'a' :: 'l' :: 's' :: 'e' :: rest => some (.bool false, rest)
    | '"' :: rest => do
      let (content, rest) ← readString rest
      return (.string content, rest)
    | '[' :: rest =>
      match skipBlanks rest with
      | ']' :: rest => some (.array [], rest)
      | rest => readItems fuel [] rest
    | '\x7b' :: rest =>
      match skipBlanks rest with
      | '\x7d' :: rest => some (.object [], rest)
      | rest => readMembers fuel [] rest
    | rest => readNumber rest

def readItems : Nat → List Json → List Char → Option (Json × List Char)
  | 0, _, _ => none
  | fuel + 1, done, text => do
    let (item, rest) ← readValue fuel text
    match skipBlanks rest with
    | ',' :: rest => readItems fuel (item :: done) rest
    | ']' :: rest => return (.array (item :: done).reverse, rest)
    | _ => none

def readMembers : Nat → List (Option String × Json) → List Char → Option (Json × List Char)
  | 0, _, _ => none
  | fuel + 1, done, text =>
    match skipBlanks text with
    | '"' :: rest => do
      let (name, rest) ← readString rest
      match skipBlanks rest with
      | ':' :: rest =>
        let (value, rest) ← readValue fuel rest
        match skipBlanks rest with
        | ',' :: rest => readMembers fuel ((name, value) :: done) rest
        | '\x7d' :: rest => return (.object ((name, value) :: done).reverse, rest)
        | _ => none
      | _ => none
    | _ => none

end

/-- Reads a text that holds one value. Every second step of the reader takes at least one
character. -/
def read? (text : String) : Option Json :=
  let chars := text.toList
  match readValue (2 * chars.length + 2) chars with
  | some (value, rest) => if (skipBlanks rest).isEmpty then some value else none
  | none => none

end SsaLowering.Json
