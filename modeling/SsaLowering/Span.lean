/-!
# Spans

A span is a half-open range of byte offsets into a source text. Its two ends never cross, which
`Span.ofBounds?` checks and every operation keeps.
-/

namespace SsaLowering

/-- The bytes from `start` up to, and without, `stop`. -/
structure Span where
  start : Nat
  stop : Nat
  ordered : start ≤ stop := by omega
  deriving DecidableEq, Repr

namespace Span

/-- The span between two offsets, unless they cross. -/
def ofBounds? (start stop : Nat) : Option Span :=
  if h : start ≤ stop then some ⟨start, stop, h⟩ else none

def point (offset : Nat) : Span :=
  ⟨offset, offset, Nat.le_refl offset⟩

def zero : Span :=
  point 0

instance : Inhabited Span :=
  ⟨zero⟩

def length (span : Span) : Nat :=
  span.stop - span.start

def isEmpty (span : Span) : Bool :=
  span.start == span.stop

def merge (a b : Span) : Span :=
  ⟨min a.start b.start, max a.stop b.stop, by have := a.ordered; have := b.ordered; omega⟩

/-- Spans are ordered by where they start, then by where they stop. -/
def compare (a b : Span) : Ordering :=
  (Ord.compare a.start b.start).then (Ord.compare a.stop b.stop)

def le (a b : Span) : Bool :=
  a.compare b != .gt

def render (span : Span) : String :=
  toString span.start ++ ".." ++ toString span.stop

theorem ofBounds?_eq_some_iff {start stop : Nat} {span : Span} :
    ofBounds? start stop = some span ↔ span.start = start ∧ span.stop = stop := by
  unfold ofBounds?
  constructor
  · intro h
    split at h
    · cases h
      exact ⟨rfl, rfl⟩
    · cases h
  · rintro ⟨rfl, rfl⟩
    rw [dif_pos span.ordered]

theorem ofBounds?_eq_none_iff {start stop : Nat} :
    ofBounds? start stop = none ↔ stop < start := by
  unfold ofBounds?
  split <;> simp <;> omega

@[simp] theorem length_point (offset : Nat) : (point offset).length = 0 := by
  simp [point, length]

end Span

end SsaLowering
