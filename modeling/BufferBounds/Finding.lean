import BufferBounds.Transfer

/-!
# Findings

What is told of the accesses of a function. A `Reporter` takes accesses with their verdicts, counts
all of them, and keeps those that are reported: the ones out of bounds, and on request the ones in
bounds. It hands them out in the order of the source text; findings at the same position stay in
the order they were made in.
-/

namespace BufferBounds

/-! ## Counts -/

/-- How many accesses there are with each verdict. -/
structure Tally where
  /-- accesses in bounds -/
  inBounds : Nat
  /-- accesses out of bounds -/
  outOfBounds : Nat
  /-- accesses of which neither is known -/
  indeterminate : Nat
  deriving DecidableEq

namespace Tally

/-- No accesses. -/
def zero : Tally := ⟨0, 0, 0⟩

/-- One access more. -/
def count (t : Tally) : Verdict → Tally
  | .inBounds => { t with inBounds := t.inBounds + 1 }
  | .outOfBounds => { t with outOfBounds := t.outOfBounds + 1 }
  | .indeterminate => { t with indeterminate := t.indeterminate + 1 }

/-- The accesses of both. -/
def add (t u : Tally) : Tally where
  inBounds := t.inBounds + u.inBounds
  outOfBounds := t.outOfBounds + u.outOfBounds
  indeterminate := t.indeterminate + u.indeterminate

/-- How many accesses there are. -/
def total (t : Tally) : Nat := t.inBounds + t.outOfBounds + t.indeterminate

/-- The counts in words. -/
protected def toString (t : Tally) : String :=
  s!"{t.total} accesses: {t.outOfBounds} out-of-bounds, {t.inBounds} in-bounds, " ++
    s!"{t.indeterminate} indeterminate"

instance : ToString Tally := ⟨Tally.toString⟩

end Tally

/-! ## Findings -/

/-- An access that is reported. -/
structure Finding where
  /-- what is known of it -/
  verdict : Verdict
  /-- where it stands in the source text -/
  span : Span
  /-- the function it is made in -/
  function : String
  /-- the variable that is indexed -/
  base : String
  /-- what is known of the index -/
  index : Interval
  /-- what is known of the size of the buffer -/
  size : Interval
  deriving DecidableEq

namespace Finding

/-- The finding about an access with this verdict. -/
def ofAccess (access : Access) (verdict : Verdict) : Finding where
  verdict := verdict
  span := access.span
  function := access.function
  base := access.base
  index := access.index
  size := access.size?.getD .unknown

/-- The line it is found in. -/
def line (f : Finding) : UInt32 := f.span.startLine

/-- Does `f` start before `g`, or where `g` starts? -/
def notAfter (f g : Finding) : Bool :=
  (compareLex (compareOn Span.startLine) (compareOn Span.startCol) f.span g.span).isLE

/-- The finding in words. -/
protected def toString (f : Finding) : String :=
  s!"{f.span} {f.verdict}: {f.base}[{f.index}] against size {f.size} in " ++
    "\x60" ++ f.function ++ "\x60"

instance : ToString Finding := ⟨Finding.toString⟩

/-- The findings by the line and column they start at. Findings that start at the same position
keep their order. -/
def sort (findings : List Finding) : List Finding := findings.mergeSort notAfter

end Finding

/-! ## Reporters -/

/-- What collects the findings. -/
structure Reporter where
  /-- whether accesses in bounds are reported too -/
  reportInBounds : Bool
  /-- the findings since they were last handed out, in the order they were made in -/
  pending : List Finding
  /-- the counts of all accesses -/
  tally : Tally
  deriving DecidableEq

namespace Reporter

/-- A reporter that has seen no access. -/
def fresh (reportInBounds : Bool) : Reporter where
  reportInBounds := reportInBounds
  pending := []
  tally := .zero

/-- Are accesses with this verdict reported? -/
def keeps (r : Reporter) : Verdict → Bool
  | .outOfBounds => true
  | .inBounds => r.reportInBounds
  | .indeterminate => false

/-- Takes an access with its verdict. -/
def accept (r : Reporter) (access : Access) (verdict : Verdict) : Reporter where
  reportInBounds := r.reportInBounds
  pending := if r.keeps verdict then r.pending ++ [.ofAccess access verdict] else r.pending
  tally := r.tally.count verdict

/-- Hands out the findings since the last time, sorted. -/
def finish (r : Reporter) : List Finding × Reporter :=
  (Finding.sort r.pending, { r with pending := [] })

end Reporter

end BufferBounds
