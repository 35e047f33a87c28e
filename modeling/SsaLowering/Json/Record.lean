import SsaLowering.Json.Value

/-!
# Records and choices in JSON

How values with a fixed shape are written. A record is an object with a member for each field, or
an array of its fields in order. A choice is an object whose one member names the alternative, or,
for an alternative without content, just its name. Both open a bracket, and how many may be open
at once is limited.
-/

namespace SsaLowering.Json

/-- Reads a value while no more than some number of brackets may be opened. -/
abbrev Decoder (α : Type) := Nat → Json → Option α

/-- The fields of a record, in order, and how many brackets may be opened inside. -/
structure Fields where
  room : Nat
  values : List (Option Json)

/-- The value of a field in an object; a field may be given only once. -/
def fieldIn? (members : List (Option String × Json)) (name : String) : Option (Option Json) :=
  match members.filter (·.1 = some name) with
  | [] => some none
  | [member] => some (some member.2)
  | _ => none

/-- The fields of a record. Members of other names are ignored, but must have a proper name; an
array may end early but not hold more than the fields. -/
def fields? (names : List String) : Decoder Fields
  | room + 1, .object members =>
    if members.any (·.1.isNone) then none
    else do return { room, values := ← names.mapM (fieldIn? members) }
  | room + 1, .array items =>
    if items.length > names.length then none
    else some { room, values := names.mapIdx fun place _ => items[place]? }
  | _, _ => none

namespace Fields

def given? (fields : Fields) (place : Nat) : Option Json :=
  (fields.values[place]?).join

def required {α : Type} (fields : Fields) (place : Nat) (decode : Decoder α) : Option α :=
  (fields.given? place).bind (decode fields.room)

/-- A field with a value of its own when it is not given. -/
def defaulted {α : Type} (fields : Fields) (place : Nat) (fallback : α) (decode : Decoder α) :
    Option α :=
  match fields.given? place with
  | none => some fallback
  | some json => decode fields.room json

end Fields

/-- A value that takes no brackets. -/
def plain {α : Type} (decode : Json → Option α) : Decoder α :=
  fun _ json => decode json

def nullable {α : Type} (decode : Decoder α) : Decoder (Option α)
  | _, .null => some none
  | room, json => (decode room json).map some

def listOf {α : Type} (decode : Decoder α) : Decoder (List α)
  | room + 1, .array items => items.mapM (decode room)
  | _, _ => none

def pairOf {α : Type} (decode : Decoder α) : Decoder (α × α)
  | room + 1, .array [first, second] => do return (← decode room first, ← decode room second)
  | _, _ => none

/-- A choice: the name of the alternative, its content, and the brackets left for it. -/
structure Choice where
  room : Nat
  name : String
  content : Option Json

def choice? : Decoder Choice
  | room, .string (some name) => some { room, name, content := none }
  | room + 1, .object [(some name, content)] => some { room, name, content := some content }
  | _, _ => none

namespace Choice

def read {α : Type} (choice : Choice) (decode : Decoder α) : Option α :=
  choice.content.bind (decode choice.room)

/-- An alternative without content. -/
def bare {α : Type} (choice : Choice) (value : α) : Option α :=
  match choice.content with
  | none => some value
  | some .null => some value
  | some _ => none

end Choice

end SsaLowering.Json
