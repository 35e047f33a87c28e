import SsaLowering.Arena
import SsaLowering.Span

/-!
# Source texts

A source text knows where its lines start, counted in bytes of its UTF-8 form, and resolves a
span to the line and column of its first character. Offsets, lines and columns are 32-bit numbers:
a text has fewer than 2 ^ 32 bytes, and counting a line or column may overflow at its end.
-/

namespace SsaLowering

structure SourceText where
  path : String
  text : String
  deriving DecidableEq, Repr

/-- A line, a column (both counted from one) and the text of the line. -/
structure SourceLocation where
  line : UInt32 := 1
  column : UInt32 := 1
  lineText : String := ""
  deriving DecidableEq, Repr

namespace SourceText

def byteLength (chars : List Char) : Nat :=
  (chars.map Char.utf8Size).foldl (· + ·) 0

/-- Splits a list of characters after exactly `count` bytes; fails where that would cut a
character in two or pass the end. -/
def splitBytes? : Nat → List Char → Option (List Char × List Char)
  | 0, chars => some ([], chars)
  | _ + 1, [] => none
  | count + 1, c :: rest =>
    if c.utf8Size ≤ count + 1 then
      (splitBytes? (count + 1 - c.utf8Size) rest).map fun (front, back) => (c :: front, back)
    else
      none

def slice? (chars : List Char) (start stop : Nat) : Option (List Char) := do
  guard (start ≤ stop)
  let (_, rest) ← splitBytes? start chars
  let (middle, _) ← splitBytes? (stop - start) rest
  return middle

/-- The offsets just after each line break, for text that begins at `offset`. -/
def breaks : Nat → List Char → List Nat
  | _, [] => []
  | offset, c :: rest =>
    let next := offset + c.utf8Size
    if c = '\n' then next :: breaks next rest else breaks next rest

def lineStarts (source : SourceText) : Array Nat :=
  (0 :: breaks 0 source.text.toList).toArray

def size (source : SourceText) : Nat :=
  byteLength source.text.toList

def fullSpan (source : SourceText) : Span :=
  ⟨0, source.size, Nat.zero_le _⟩

/-- Halves the part of an ascending table from `low` up to `high` until the target is found there,
or else the position at which it would have to be inserted. -/
def search (table : Array Nat) (target low high : Nat) (hhigh : high ≤ table.size) :
    Except Nat Nat :=
  if hlow : low < high then
    let middle := low + (high - low) / 2
    have hmiddle : middle < table.size := by omega
    if table[middle] = target then .ok middle
    else if table[middle] < target then search table target (middle + 1) high hhigh
    else search table target low middle (by omega)
  else
    .error low
termination_by high - low

/-- The line that holds an offset: the one that starts there, or else the last that starts
before it. -/
def lineIndex (source : SourceText) (offset : Nat) : Nat :=
  match search source.lineStarts offset 0 source.lineStarts.size (Nat.le_refl _) with
  | .ok index => index
  | .error index => index - 1

/-- The line that a span starts in: its index, its characters before the span, and all of them.
There is none if the span passes the end of the text or starts inside a character. -/
def lineAt? (source : SourceText) (span : Span) : Option (Nat × List Char × List Char) := do
  guard (span.stop ≤ source.size)
  let chars := source.text.toList
  let index := source.lineIndex span.start
  let lineStart := (source.lineStarts[index]?).getD 0
  let lineStop := (source.lineStarts[index + 1]?).getD source.size
  let before ← slice? chars lineStart span.start
  let line ← slice? chars lineStart lineStop
  return (index, before, line)

/-- One more than a count, in 32 bits. -/
def oneMore (count : Nat) : Except Fault UInt32 :=
  if h : count + 1 < UInt32.size then .ok (.ofNatLT (count + 1) h) else .error .overflow

/-- The place at which a span starts, if it has one. -/
def locate (source : SourceText) (span : Span) : Except Fault (Option SourceLocation) :=
  match source.lineAt? span with
  | none => .ok none
  | some (index, before, line) => do
    let column ← oneMore before.length
    return some { line := ← oneMore index, column, lineText := String.ofList line }

end SourceText

end SsaLowering
