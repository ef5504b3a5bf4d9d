/-!
# Spans

Where a statement stands in the text it was read from.
-/

namespace BufferBounds

/-- A stretch of source text, by the line and column of its two ends. -/
structure Span where
  /-- line of the first character -/
  startLine : UInt32
  /-- column of the first character -/
  startCol : UInt32
  /-- line of the last character -/
  endLine : UInt32
  /-- column of the last character -/
  endCol : UInt32
  deriving DecidableEq

namespace Span

/-- Spans are ordered by where they start, then by where they end. -/
protected def compare : Span → Span → Ordering :=
  compareLex (compareOn startLine) <| compareLex (compareOn startCol) <|
    compareLex (compareOn endLine) (compareOn endCol)

instance : Ord Span := ⟨Span.compare⟩

instance : Std.TransOrd Span := inferInstanceAs (Std.TransCmp (compareLex _ _))

instance : Std.LawfulEqOrd Span where
  eq_of_compare {s t} h := by
    change Span.compare s t = .eq at h
    simp only [Span.compare, compareLex_eq_eq, compareOn, Std.LawfulEqCmp.compare_eq_iff_eq] at h
    cases s
    cases t
    simp_all

/-- Does the span touch `line`? -/
def containsLine (s : Span) (line : UInt32) : Bool :=
  s.startLine ≤ line && line ≤ s.endLine

/-- Do the lines of `s` include those of `t`? -/
def contains (s t : Span) : Bool :=
  s.startLine ≤ t.startLine && t.endLine ≤ s.endLine

/-- Only the start is written: `line:column`. -/
protected def toString (s : Span) : String :=
  s!"{s.startLine.toNat}:{s.startCol.toNat}"

instance : ToString Span := ⟨Span.toString⟩

end Span

end BufferBounds
