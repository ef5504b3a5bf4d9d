import BufferBounds.Propagation.Descent

/-!
# Propagation

The stores at the start and the end of every block that is reached, such that one more step would
change nothing, and what is seen when every block is run once more from its store: the buffers
that are allocated and the accesses that are made.
-/

namespace BufferBounds

namespace Progress

variable {g : Flow}

/-- Visits blocks until none is pending. -/
def finish (p : Progress g) (settings : Settings) : Progress g :=
  match _h : p.step? settings with
  | none => p
  | some q => q.finish settings
termination_by p.measure settings
decreasing_by exact measure_step?_lt _h

end Progress

/-- What propagation finds out about a function. -/
structure Solution where
  /-- the store at the start of each block that is reached -/
  entries : Table Store
  /-- the store at the end of each block that is reached -/
  exits : Table Store
  /-- how often a block was run to find them -/
  transfers : Nat
  /-- the blocks whose store was widened, in the order in which this first happened -/
  widened : List String
  /-- the buffers that are allocated, in the order of the blocks and their statements -/
  allocations : List Allocation
  /-- the accesses that are made, in the order of the blocks and their statements -/
  accesses : List Access
  deriving DecidableEq

namespace Solution

/-- Is the block reached? -/
def isReached (r : Solution) (id : String) : Bool := id ∈ r.entries

end Solution

namespace Flow

/-- What is seen in the blocks with an entry store, in their order, when each is run from it. -/
def observe {α : Type} (g : Flow) (entries : Table Store) (see : Block → Store → List α) : List α :=
  g.order.flatMap fun b =>
    match entries[b.id]? with
    | some entry => see b entry
    | none => []

/-- Propagates stores through the flow graph. -/
def propagate (g : Flow) (settings : Settings) : Solution :=
  let p := (Progress.start g).finish settings
  { entries := p.entries
    exits := p.exits
    transfers := p.transfers
    widened := p.widened
    allocations := g.observe p.entries fun b entry => b.allocations settings entry
    accesses := g.observe p.entries fun b entry => b.accesses settings g.function.name entry }

/-- Would one more step leave the stores of a block as they are? -/
def isStableAt (g : Flow) (settings : Settings) (r : Solution) (b : Block) : Bool :=
  match r.entries[b.id]? with
  | none => true
  | some entry =>
    (match g.incomingStore? settings r.exits b.id with
      | none => true
      | some incoming => decide (entry.join incoming = entry)) &&
    decide (r.exits[b.id]? = some (b.transfer settings entry))

/-- Would one more step leave the stores of all reached blocks as they are? -/
def isStable (g : Flow) (settings : Settings) (r : Solution) : Bool :=
  g.order.all (g.isStableAt settings r)

end Flow

end BufferBounds
