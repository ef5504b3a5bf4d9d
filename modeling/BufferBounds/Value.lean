import BufferBounds.Interval
import BufferBounds.Span
import BufferBounds.Table

/-!
# Values

What a variable holds: a number, described by an interval, or a pointer. A pointer that came from
an allocator knows the places that may have allocated its buffer and the size asked for there; any
other pointer is untracked.

The size is the one seen at the allocation. Writing later to a variable that the size was computed
from does not resize the buffer.
-/

namespace BufferBounds

/-! ## Sites -/

/-- The place of an allocation in a function. -/
structure Site where
  /-- the block it stands in -/
  block : String
  /-- which statement of the block it is, counted from zero -/
  statement : Nat
  /-- where the statement stands in the source text -/
  span : Span
  deriving DecidableEq

namespace Site

/-- Sites are ordered by block, statement and span, in this order. -/
protected def compare : Site → Site → Ordering :=
  compareLex (compareOn block) <| compareLex (compareOn statement) (compareOn span)

instance : Ord Site := ⟨Site.compare⟩

instance : Std.TransOrd Site := inferInstanceAs (Std.TransCmp (compareLex _ _))

instance : Std.LawfulEqOrd Site where
  eq_of_compare {s t} h := by
    change Site.compare s t = .eq at h
    simp only [Site.compare, compareLex_eq_eq, compareOn, Std.LawfulEqCmp.compare_eq_iff_eq] at h
    cases s
    cases t
    simp_all

/-- `block#statement@line:column` -/
protected def toString (s : Site) : String :=
  s!"{s.block}#{s.statement}@{s.span}"

instance : ToString Site := ⟨Site.toString⟩

end Site

/-- A finite set of sites, listed in their order. -/
abbrev Sites := Std.ExtTreeSet Site

/-! ## Pointers -/

/-- What a pointer refers to. -/
inductive Pointer where
  /-- a heap buffer allocated at one of `sites`, whose size is in `size` wherever it was -/
  | buffer (sites : Sites) (size : Interval)
  /-- something of which nothing is known -/
  | untracked
  deriving DecidableEq

namespace Pointer

/-- The buffer that was allocated at `site`. -/
def fresh (site : Site) (size : Interval) : Pointer :=
  .buffer (Std.ExtTreeSet.ofList [site]) size

/-- The size of a tracked buffer. -/
def size? : Pointer → Option Interval
  | .buffer _ size => some size
  | .untracked => none

/-- The sites of a tracked buffer. -/
def sites? : Pointer → Option Sites
  | .buffer sites _ => some sites
  | .untracked => none

/-- A pointer that is one of the two. -/
def join : Pointer → Pointer → Pointer
  | .buffer sites₁ size₁, .buffer sites₂ size₂ => .buffer (sites₁ ∪ sites₂) (size₁.join size₂)
  | _, _ => .untracked

end Pointer

/-! ## Values -/

/-- What a variable holds. -/
inductive Value where
  /-- a number -/
  | scalar (i : Interval)
  /-- a pointer -/
  | pointer (p : Pointer)
  deriving DecidableEq

namespace Value

/-- A value of which nothing is known, not even whether it is a pointer. -/
def top : Value := .scalar .unknown

/-- Forgets all but the kind: an unknown number or an untracked pointer. -/
def widened : Value → Value
  | .scalar _ => .scalar .unknown
  | .pointer _ => .pointer .untracked

/-- The number it is. Of a pointer, as a number, nothing is known. -/
def number : Value → Interval
  | .scalar i => i
  | .pointer _ => .unknown

/-- The pointer it is, if it is one. -/
def pointer? : Value → Option Pointer
  | .pointer p => some p
  | .scalar _ => none

/-- A value that is one of the two. What may be a number or a pointer is unknown. -/
def join : Value → Value → Value
  | .scalar i, .scalar j => .scalar (i.join j)
  | .pointer p, .pointer q => .pointer (p.join q)
  | _, _ => top

/-- A number as its interval, a buffer by its size. -/
protected def toString : Value → String
  | .scalar i => toString i
  | .pointer (.buffer _ size) => s!"buffer(size={size})"
  | .pointer .untracked => "pointer(?)"

instance : ToString Value := ⟨Value.toString⟩

end Value

end BufferBounds
