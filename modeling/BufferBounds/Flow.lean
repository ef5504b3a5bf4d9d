import BufferBounds.Flow.Order

/-!
# Flow graphs

A `Flow` is a function whose block names fit together: no name is given twice, the entry names a
block, and so does every target of a terminator. `Flow.ofFunction` builds it, or names the first
fault. Beside the function it holds the order in which its reachable blocks are visited.
-/

namespace BufferBounds

/-! ## Faults -/

/-- Why a function is no flow graph. -/
inductive FlowError where
  /-- a second block has the name `id` -/
  | duplicateBlock (function id : String)
  /-- no block has the name of the entry -/
  | missingEntry (function entry : String)
  /-- no block has the name of a target of `block` -/
  | unknownTarget (function block target : String)
  deriving DecidableEq

namespace FlowError

/-- The message that tells the user. -/
def message : FlowError → String
  | .duplicateBlock function id =>
    s!"Invalid CFG: function '{function}': duplicate block id '{id}'"
  | .missingEntry function entry =>
    s!"Invalid CFG: function '{function}': entry block '{entry}' not found"
  | .unknownTarget function block target =>
    s!"Invalid CFG: function '{function}': block '{block}' jumps to unknown block '{target}'"

end FlowError

namespace Function

/-- The names of the blocks fit together. -/
structure WellFormed (f : Function) : Prop where
  /-- no name is given twice -/
  nodup_ids : f.ids.Nodup
  /-- the entry names a block -/
  entry_mem_ids : f.entry ∈ f.ids
  /-- every target names a block -/
  targets_mem_ids : ∀ b ∈ f.blocks, ∀ t ∈ b.terminator.targets, t ∈ f.ids

/-- The first name that occurs in `seen` or earlier in the list. -/
def repeated? (seen : List String) : List String → Option String
  | [] => none
  | id :: ids => if id ∈ seen then some id else repeated? (id :: seen) ids

theorem repeated?_eq_none_iff (seen ids : List String) :
    repeated? seen ids = none ↔ ids.Nodup ∧ ∀ id ∈ ids, id ∉ seen := by
  induction ids generalizing seen with
  | nil => simp [repeated?]
  | cons id ids ih =>
    rw [repeated?]
    split
    · rename_i h
      simp [h]
    · rename_i h
      rw [ih, List.nodup_cons]
      constructor
      · rintro ⟨hd, hs⟩
        refine ⟨⟨fun hm => hs id hm (List.mem_cons_self ..), hd⟩, ?_⟩
        intro x hx
        rcases List.mem_cons.mp hx with rfl | hx
        · exact h
        · exact fun hm => hs x hx (List.mem_cons_of_mem _ hm)
      · rintro ⟨⟨hn, hd⟩, hs⟩
        refine ⟨hd, fun x hx hm => ?_⟩
        rcases List.mem_cons.mp hm with rfl | hm
        · exact hn hx
        · exact hs x (List.mem_cons_of_mem _ hx) hm

/-- The first target of a block that names no block. -/
def unknownTarget? (f : Function) (b : Block) : Option FlowError :=
  (b.terminator.targets.find? (· ∉ f.ids)).map (.unknownTarget f.name b.id)

/-- The first fault: a repeated name, then a missing entry, then an unknown target. -/
def fault? (f : Function) : Option FlowError :=
  match repeated? [] f.ids with
  | some id => some (.duplicateBlock f.name id)
  | none =>
    if f.entry ∈ f.ids then f.blocks.findSome? f.unknownTarget?
    else some (.missingEntry f.name f.entry)

theorem unknownTarget?_eq_none_iff (f : Function) (b : Block) :
    f.unknownTarget? b = none ↔ ∀ t ∈ b.terminator.targets, t ∈ f.ids := by
  simp [unknownTarget?]

/-- Exactly the functions without a fault are well formed. -/
theorem fault?_eq_none_iff (f : Function) : f.fault? = none ↔ f.WellFormed := by
  rw [fault?]
  constructor
  · intro h
    split at h
    · cases h
    · rename_i hr
      split at h
      · rename_i he
        exact ⟨((repeated?_eq_none_iff _ _).mp hr).1, he, fun b hb =>
          (unknownTarget?_eq_none_iff f b).mp (List.findSome?_eq_none_iff.mp h b hb)⟩
      · cases h
  · intro h
    rw [(repeated?_eq_none_iff [] f.ids).mpr ⟨h.nodup_ids, fun _ _ => List.not_mem_nil⟩]
    simp only [if_pos h.entry_mem_ids]
    exact List.findSome?_eq_none_iff.mpr fun b hb =>
      (unknownTarget?_eq_none_iff f b).mpr (h.targets_mem_ids b hb)

end Function

/-! ## Flow graphs -/

/-- A function whose block names fit together. -/
structure Flow where
  /-- the function -/
  function : Function
  /-- its block names fit together -/
  wellFormed : function.WellFormed
  /-- its reachable blocks in the order they are visited in -/
  order : List Block
  /-- the order is the one of the search from the entry -/
  order_eq : order = function.visitOrder

namespace Flow

/-- The flow graph of a function, or its first fault. -/
def ofFunction (f : Function) : Except FlowError Flow :=
  match h : f.fault? with
  | some error => .error error
  | none => .ok ⟨f, (f.fault?_eq_none_iff).mp h, f.visitOrder, rfl⟩

/-! ## Blocks and their places -/

/-- The names of the reachable blocks, in the order they are visited in. -/
def orderIds (g : Flow) : List String := g.order.map (·.id)

/-- The place of a reachable block in the order. -/
def position? (g : Flow) (id : String) : Option Nat :=
  g.order.findIdx? (·.id == id)

/-- Can the block be reached from the entry? -/
def isReachable (g : Flow) (id : String) : Bool := (g.position? id).isSome

/-- The place of a block in the list of the function. -/
def slot? (g : Flow) (id : String) : Option Nat :=
  g.function.blocks.findIdx? (·.id == id)

/-! ## Edges -/

/-- The edges into a block, each with the block it leaves: by the place of that block in the list
of the function, the edge of a true branch first. -/
def incoming (g : Flow) (id : String) : List (Block × EdgeKind) :=
  g.function.blocks.flatMap fun b =>
    (b.terminator.edges.filter (·.1 == id)).map fun edge => (b, edge.2)

/-- The blocks that a block leads to, in the order of its edges; one that both branches lead to
is named once. -/
def successors (g : Flow) (id : String) : List String :=
  match g.function.block? id with
  | some b => b.terminator.targets.eraseReps
  | none => []

/-- Does a loop start at the block: is it reached from a block at the same or a later place? -/
def isLoopHeader (g : Flow) (id : String) : Bool :=
  match g.position? id with
  | some place => (g.order.drop place).any fun b => id ∈ b.terminator.targets
  | none => false

end Flow

end BufferBounds
