/-!
# Arenas and side tables

An arena is a dense sequence; the position at which an element was added names it from then on.
A side table attaches data to such positions: every position reads as the table's fallback until
it is written, and writing past the end makes room. `SideTable.get_set` is the law of both.
-/

namespace SsaLowering

/-- Why a step of the engine stopped without an answer. -/
inductive Fault where
  /-- A position names no element of its arena. -/
  | missing
  /-- An instruction was to follow the terminator of its block. -/
  | terminated
  /-- No recorded predecessor of a reachable block is itself reachable. -/
  | undominated
  /-- A 32-bit count went past its range. -/
  | overflow
  deriving DecidableEq, Repr

abbrev Arena (α : Type) := Array α

namespace Arena

variable {α : Type}

def fetch (arena : Arena α) (key : Nat) : Except Fault α :=
  match arena[key]? with
  | some element => .ok element
  | none => .error .missing

def add (arena : Arena α) (element : α) : Nat × Arena α :=
  (arena.size, arena.push element)

def alter (arena : Arena α) (key : Nat) (change : α → α) : Except Fault (Arena α) :=
  if key < arena.size then .ok (arena.modify key change) else .error .missing

def holds (arena : Arena α) (key : Nat) : Bool :=
  decide (key < arena.size)

def keys (arena : Arena α) : List Nat :=
  List.range arena.size

def entries (arena : Arena α) : List (Nat × α) :=
  arena.keys.zip arena.toList

def mapKeyed (arena : Arena α) (change : Nat → α → α) : Arena α :=
  arena.mapIdx change

def render (arena : Arena α) (key : Nat → String) (element : α → String) : String :=
  "\x7b" ++ String.intercalate ", " (arena.entries.map fun e => key e.1 ++ ": " ++ element e.2)
    ++ "\x7d"

theorem fetch_eq_ok_iff {arena : Arena α} {key : Nat} {element : α} :
    arena.fetch key = .ok element ↔ arena[key]? = some element := by
  unfold fetch
  split <;> simp_all

theorem fetch_add_self (arena : Arena α) (element : α) :
    fetch (arena.add element).2 (arena.add element).1 = .ok element := by
  simp [add, fetch_eq_ok_iff]

end Arena

structure SideTable (α : Type) where
  /-- What an unwritten position reads as. -/
  fallback : α
  cells : Array α := #[]
  deriving Repr

namespace SideTable

variable {α : Type}

def get (table : SideTable α) (key : Nat) : α :=
  table.cells.getD key table.fallback

/-- Stores `value` at `key`; positions skipped over are filled with the fallback. -/
def set (table : SideTable α) (key : Nat) (value : α) : SideTable α :=
  if key < table.cells.size then
    { table with cells := table.cells.setIfInBounds key value }
  else
    { table with
      cells := (table.cells ++ Array.replicate (key - table.cells.size) table.fallback).push value }

def modify (table : SideTable α) (key : Nat) (change : α → α) : SideTable α :=
  table.set key (change (table.get key))

def size (table : SideTable α) : Nat :=
  table.cells.size

def clear (table : SideTable α) : SideTable α :=
  { table with cells := #[] }

def entries (table : SideTable α) : List (Nat × α) :=
  (List.range table.cells.size).zip table.cells.toList

@[simp] theorem get_set (table : SideTable α) (key other : Nat) (value : α) :
    (table.set key value).get other = if other = key then value else table.get other := by
  unfold set get
  by_cases hk : key < table.cells.size
  · simp only [hk, if_true, Array.getD_eq_getD_getElem?, Array.getElem?_setIfInBounds]
    by_cases ho : other = key
    · simp [ho]
    · simp [ho, Ne.symm ho]
  · simp only [hk, if_false, Array.getD_eq_getD_getElem?, Array.getElem?_push,
      Array.getElem?_append, Array.size_append, Array.size_replicate]
    by_cases ho : other = key
    · subst ho
      have : other = table.cells.size + (other - table.cells.size) := by omega
      simp [← this]
    · have hne : ¬ other = table.cells.size + (key - table.cells.size) := by omega
      simp only [hne, if_false, ho]
      by_cases hs : other < table.cells.size
      · simp [hs]
      · simp only [hs, if_false, Array.getElem?_replicate]
        split <;> simp [Array.getElem?_eq_none (Nat.le_of_not_lt hs)]

@[simp] theorem get_clear (table : SideTable α) (key : Nat) :
    table.clear.get key = table.fallback := by
  simp [clear, get, Array.getD_eq_getD_getElem?]

end SideTable

end SsaLowering
