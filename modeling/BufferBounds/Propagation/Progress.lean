import BufferBounds.Propagation.Scope

/-!
# Propagation, step by step

The stores at the start and the end of every block are found by visiting blocks until nothing
changes. The places of the blocks that are still to be visited are pending; of these the first one
in the order of the flow graph is visited next. A visit

* joins the stores that arrive at the block to the store that was there before, and ends if this
  changes nothing;
* counts the change, if a loop starts at the block, and once there were too many forgets all but
  the kind of the variables that still change;
* runs the block, and if the store at its end is a new one makes the blocks it leads to pending.
-/

namespace BufferBounds

/-! ## Pending places -/

/-- Puts a place into an ascending list of places, unless it is there already. -/
def enqueue (place : Nat) : List Nat → List Nat
  | [] => [place]
  | first :: rest =>
    if place < first then place :: first :: rest
    else if place = first then first :: rest
    else first :: enqueue place rest

/-- The places of the blocks that a block leads to. -/
def Flow.targetPlaces (g : Flow) (b : Block) : List Nat :=
  b.terminator.targets.filterMap g.position?

/-! ## Progress -/

/-- How far the propagation is. -/
structure Progress (g : Flow) where
  /-- the store at the start of each block that was reached -/
  entries : Table Store
  /-- the store at the end of each block that was reached -/
  exits : Table Store
  /-- how often the store at the start of a loop changed after the first visit -/
  changes : Table Nat
  /-- the blocks whose store was widened, in the order in which this first happened -/
  widened : List String
  /-- how often a block was run -/
  transfers : Nat
  /-- the places of the blocks to be visited, ascending -/
  pending : List Nat
  /-- only variables that are assigned somewhere are bound at the start of a block -/
  within_entries :
    ∀ (id : String) (s : Store), entries[id]? = some s → s.Within g.assigned
  /-- only variables that are assigned somewhere are bound at the end of a block -/
  within_exits :
    ∀ (id : String) (s : Store), exits[id]? = some s → s.Within g.assigned

namespace Progress

variable {g : Flow}

/-- Before the first visit all blocks are pending. -/
def start (g : Flow) : Progress g where
  entries := ∅
  exits := ∅
  changes := ∅
  widened := []
  transfers := 0
  pending := List.range g.order.length
  within_entries := by simp
  within_exits := by simp

theorem within_insert {stores : Table Store} {vars : List String} {id : String} {s : Store}
    (hstores : ∀ (id : String) (s : Store), stores[id]? = some s → s.Within vars)
    (hs : s.Within vars) (id' : String) (s' : Store)
    (h : (stores.insert id s)[id']? = some s') : s'.Within vars := by
  rw [Std.ExtTreeMap.getElem?_insert] at h
  split at h
  · exact Option.some.inj h ▸ hs
  · exact hstores id' s' h

/-! ## Visits -/

/-- Runs the block `b` from the store `entry`. -/
def run (p : Progress g) (settings : Settings) (b : Block) (hb : b ∈ g.order) (entry : Store)
    (hentry : entry.Within g.assigned) : Progress g :=
  let exit := b.transfer settings entry
  { p with
    entries := p.entries.insert b.id entry
    exits := p.exits.insert b.id exit
    transfers := p.transfers + 1
    pending :=
      if p.exits[b.id]? = some exit then p.pending
      else (g.targetPlaces b).foldl (fun pending place => enqueue place pending) p.pending
    within_entries := within_insert p.within_entries hentry
    within_exits := within_insert p.within_exits
      (Block.within_transfer hentry fun _ => Flow.mem_assigned hb) }

/-- Takes note that the store at the start of a loop changes. -/
def count (p : Progress g) (id : String) : Progress g :=
  { p with changes := p.changes.insert id (p.changes.getD id 0 + 1) }

/-- Takes note that the store at the start of a loop is widened. -/
def widen (p : Progress g) (id : String) : Progress g :=
  { p with widened := if id ∈ p.widened then p.widened else p.widened ++ [id] }

/-- Visits the block `b`, where the store `incoming` arrives. -/
def visit (p : Progress g) (settings : Settings) (b : Block) (hb : b ∈ g.order) (incoming : Store)
    (hincoming : incoming.Within g.assigned) : Progress g :=
  match hold : p.entries[b.id]? with
  | none => p.run settings b hb incoming hincoming
  | some old =>
    let joined := old.join incoming
    have hjoined := (p.within_entries b.id old hold).join hincoming
    if joined = old then p
    else if g.isLoopHeader b.id then
      let counted := p.count b.id
      if settings.maxFixpointIterations.toNat < counted.changes.getD b.id 0 then
        (counted.widen b.id).run settings b hb (joined.widen (old.changed joined))
          (hjoined.widen _)
      else counted.run settings b hb joined hjoined
    else p.run settings b hb joined hjoined

/-- Visits the first pending block, if there is one. A block where no store arrives is left. -/
def step? (p : Progress g) (settings : Settings) : Option (Progress g) :=
  match p.pending with
  | [] => none
  | place :: pending =>
    let p : Progress g := { p with pending }
    match hb : g.order[place]? with
    | none => some p
    | some b =>
      match hin : g.incomingStore? settings p.exits b.id with
      | none => some p
      | some incoming =>
        some (p.visit settings b (List.mem_of_getElem? hb) incoming
          (Flow.within_incomingStore? p.within_exits hin))

end Progress

end BufferBounds
