import BufferBounds.Allocation
import BufferBounds.Evaluation
import BufferBounds.Guard
import BufferBounds.Settings

/-!
# Running blocks

What a block does to a store, what an edge lets through, and what can be seen on the way: the
buffers allocated and the accesses made. A block is run statement by statement; the states between
its statements are its `trace`.
-/

namespace BufferBounds

/-- An access `base[index]`, as it is seen in the store it is made in. -/
structure Access where
  /-- the function it is made in -/
  function : String
  /-- the variable that is indexed -/
  base : String
  /-- what the variable points to, if it holds a pointer -/
  pointer : Option Pointer
  /-- what is known of the index -/
  index : Interval
  /-- where the access stands in the source text -/
  span : Span
  deriving DecidableEq

/-- The size of the buffer, if it is tracked. -/
def Access.size? (a : Access) : Option Interval := a.pointer.bind Pointer.size?

/-! ## Statements -/

namespace Store

/-- The store after `target = value`, where the value is no allocation.

A pointer variable is copied with all that is known of it. A variable that held a pointer and is
given a number that no allocator returned is taken to hold a pointer still, an untracked one. -/
def assign (s : Store) (target : String) (value : Expr) : Store :=
  match value.pointerSource? s with
  | some source => s.copyPointer target source
  | none =>
    match value.value s with
    | .pointer p => s.bind target (.pointer p)
    | .scalar i =>
      if (s.pointer? target).isSome then s.invalidate target else s.bind target (.scalar i)

end Store

namespace Statement

/-- The buffer that a statement allocates, if it assigns the result of an allocator. -/
def allocation? (settings : Settings) (site : Site) (s : Store) : Statement → Option Allocation
  | .assign target (.call callee args) _ =>
    if settings.isAllocator callee then
      some {
        site
        pointer := target
        size := (SizeLayout.ofCallee callee).size (args.map (·.number s)) }
    else none
  | _ => none

/-- The access that a statement makes, if it makes one. -/
def access? (function : String) (s : Store) : Statement → Option Access
  | .access base index span =>
    some { function, base, pointer := s.pointer? base, index := index.number s, span }
  | _ => none

/-- The store after a statement. -/
def after (settings : Settings) (site : Site) (s : Store) (statement : Statement) : Store :=
  match statement.allocation? settings site s, statement with
  | some allocation, _ => s.allocate allocation
  | none, .assign target value _ => s.assign target value
  | none, _ => s

end Statement

/-! ## Blocks -/

namespace Block

/-- The statements of a block, each with its site. -/
def located (b : Block) : List (Site × Statement) :=
  b.statements.zipIdx.map fun (statement, place) => (⟨b.id, place, statement.span⟩, statement)

/-- The store at the end of a block that is entered in `s`. -/
def transfer (settings : Settings) (b : Block) (s : Store) : Store :=
  b.located.foldl (fun s (site, statement) => statement.after settings site s) s

/-- The statements of a list that is entered in `s`, each with its site and the store before it. -/
def traceFrom (settings : Settings) (s : Store) :
    List (Site × Statement) → List (Site × Statement × Store)
  | [] => []
  | (site, statement) :: rest =>
    (site, statement, s) :: traceFrom settings (statement.after settings site s) rest

/-- The statements of a block that is entered in `s`, each with its site and the store before it. -/
def trace (settings : Settings) (b : Block) (s : Store) : List (Site × Statement × Store) :=
  traceFrom settings s b.located

/-- The buffers that a block allocates when it is entered in `s`. -/
def allocations (settings : Settings) (b : Block) (s : Store) : List Allocation :=
  (b.trace settings s).filterMap fun (site, statement, s) =>
    statement.allocation? settings site s

/-- The accesses that a block of the function makes when it is entered in `s`. -/
def accesses (settings : Settings) (function : String) (b : Block) (s : Store) : List Access :=
  (b.trace settings s).filterMap fun (_, statement, s) => statement.access? function s

/-- The store that reaches the other end of an edge, if the edge can be taken. -/
def along? (settings : Settings) (b : Block) (kind : EdgeKind) (s : Store) : Option Store :=
  if settings.branchNarrowing then
    match b.terminator.condition?, kind with
    | some c, .whenTrue => s.assume? c.var c.op (c.value.number s)
    | some c, .whenFalse => s.assume? c.var c.op.negate (c.value.number s)
    | _, _ => some s
  else some s

end Block

end BufferBounds
