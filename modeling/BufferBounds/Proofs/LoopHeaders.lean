import BufferBounds.Propagation.Descent
import BufferBounds.Proofs.PostOrder
import BufferBounds.Proofs.SearchOrder

/-!
# Loop headers

Where a loop starts is told by the order of the blocks alone: an edge comes from the same or a later
place. By the theorem on depth-first search such an edge closes a cycle. Along other edges the
places ascend, so a cycle without a loop header would lead from a place to a later one and back.
Hence the loop headers cut all cycles, and where there are none the order is a topological one.
-/

namespace BufferBounds

/-! ## Cycles -/

namespace Function

variable {f : Function} {source target id : String}

/-- An edge leads from `first` and from each block of `rest` to the next one, and from the last one
back to `first`. -/
def Cycle (f : Function) (first : String) (rest : List String) : Prop :=
  List.IsChain f.Edge (first :: (rest ++ [first]))

theorem transGen_of_isChain {between : List String}
    (h : List.IsChain f.Edge (source :: (between ++ [target]))) :
    Relation.TransGen f.Edge source target := by
  induction between generalizing source with
  | nil => exact .single (List.isChain_cons_cons.mp h).1
  | cons next between ih =>
    obtain ⟨hedge, hchain⟩ := List.isChain_cons_cons.mp h
    exact .head hedge (ih hchain)

theorem exists_isChain_of_transGen (h : Relation.TransGen f.Edge source target) :
    ∃ between, List.IsChain f.Edge (source :: (between ++ [target])) := by
  induction h using Relation.TransGen.head_induction_on with
  | single hedge => exact ⟨[], List.isChain_cons_cons.mpr ⟨hedge, .singleton _⟩⟩
  | head hedge _ ih =>
    obtain ⟨between, hchain⟩ := ih
    exact ⟨_ :: between, List.isChain_cons_cons.mpr ⟨hedge, hchain⟩⟩

/-- A block lies on a cycle when a path of edges leads from it back to it. -/
theorem exists_cycle_iff : (∃ rest, f.Cycle id rest) ↔ Relation.TransGen f.Edge id id :=
  ⟨fun ⟨_, h⟩ => transGen_of_isChain h, exists_isChain_of_transGen⟩

end Function

/-! ## Places -/

namespace Flow

variable {g : Flow} {source id : String} {place target : Nat}

theorem exists_position? (h : g.function.Reachable id) : ∃ place, g.position? id = some place :=
  Option.isSome_iff_exists.mp (isReachable_iff.mpr h)

theorem reachable_of_position? (h : g.position? id = some place) : g.function.Reachable id :=
  isReachable_iff.mp (Option.isSome_iff_exists.mpr ⟨place, h⟩)

/-- An edge from a block that stands in the order is one of the terminator that stands there. -/
theorem exists_block_of_edge (hedge : g.function.Edge source id)
    (hplace : g.position? source = some place) :
    ∃ b, g.order[place]? = some b ∧ id ∈ b.terminator.targets := by
  obtain ⟨b, hb, rfl⟩ := block_of_position? hplace
  obtain ⟨c, hc, ht⟩ := hedge
  rw [block?_of_mem_order (List.mem_of_getElem? hb)] at hc
  obtain rfl : b = c := Option.some.inj hc
  exact ⟨b, hb, ht⟩

/-! ## Loop headers and cycles -/

/-- A loop header is the target of an edge that leads to no later place. -/
theorem isLoopHeader_iff : g.isLoopHeader id ↔
    ∃ source place target, g.function.Edge source id ∧ g.position? source = some place ∧
      g.position? id = some target ∧ target ≤ place := by
  constructor
  · intro h
    rw [isLoopHeader] at h
    split at h
    · rename_i target htarget
      obtain ⟨b, hb, ht⟩ := List.any_eq_true.mp h
      obtain ⟨i, hi⟩ := List.mem_iff_getElem?.mp hb
      rw [List.getElem?_drop] at hi
      have hmem := List.mem_of_getElem? hi
      exact ⟨b.id, target + i, target, ⟨b, block?_of_mem_order hmem, of_decide_eq_true ht⟩,
        (position?_eq_some_iff hmem).mpr hi, htarget, Nat.le_add_right _ _⟩
    · cases h
  · rintro ⟨source, place, target, hedge, hplace, htarget, hle⟩
    obtain ⟨b, hb, ht⟩ := exists_block_of_edge hedge hplace
    exact isLoopHeader_of_le hb ht htarget hle

/-- From a loop header a path leads back to it, as the edge that makes it one leads to a block from
which a path leads to the start of the edge. -/
theorem transGen_of_isLoopHeader (h : g.isLoopHeader id) :
    Relation.TransGen g.function.Edge id id := by
  obtain ⟨source, place, target, hedge, hplace, htarget, hle⟩ := isLoopHeader_iff.mp h
  obtain ⟨b, hb, rfl⟩ := block_of_position? hplace
  obtain ⟨c, hc, rfl⟩ := block_of_position? htarget
  obtain ⟨b', hb', ht⟩ := exists_block_of_edge hedge hplace
  obtain rfl : b = b' := Option.some.inj (hb.symm.trans hb')
  exact Relation.TransGen.tail' (reaches_of_place_le hb hc ht hle) hedge

/-- Only to loop headers do edges lead back. -/
theorem position_lt_of_edge (hedge : g.function.Edge source id)
    (hplace : g.position? source = some place) (htarget : g.position? id = some target)
    (hheader : ¬ g.isLoopHeader id) : place < target :=
  Nat.lt_of_not_le fun hle =>
    hheader (isLoopHeader_iff.mpr ⟨source, place, target, hedge, hplace, htarget, hle⟩)

/-- Along a path without loop headers the places ascend. -/
theorem position_lt_of_isChain {between : List String}
    (hchain : List.IsChain g.function.Edge (source :: (between ++ [id])))
    (hplace : g.position? source = some place) (htarget : g.position? id = some target)
    (hheaders : ∀ header ∈ between ++ [id], ¬ g.isLoopHeader header) : place < target := by
  induction between generalizing source place with
  | nil =>
    have hedge := (List.isChain_cons_cons.mp hchain).1
    exact position_lt_of_edge hedge hplace htarget (hheaders id (List.mem_singleton_self id))
  | cons next between ih =>
    obtain ⟨hedge, hchain⟩ := List.isChain_cons_cons.mp hchain
    obtain ⟨nextPlace, hnext⟩ := exists_position? ((reachable_of_position? hplace).tail hedge)
    calc place
      _ < nextPlace := position_lt_of_edge hedge hplace hnext (hheaders next (List.mem_cons_self ..))
      _ < target := ih hchain hnext fun header hmem =>
        hheaders header (List.mem_cons_of_mem _ hmem)

/-- No cycle of reachable blocks does without a loop header. -/
theorem exists_isLoopHeader_of_cycle {first : String} {rest : List String}
    (hreach : g.function.Reachable first) (hcycle : g.function.Cycle first rest) :
    ∃ header ∈ first :: rest, g.isLoopHeader header := by
  by_contra hnone
  obtain ⟨place, hplace⟩ := exists_position? hreach
  have hlt : place < place := by
    refine position_lt_of_isChain hcycle hplace hplace fun header hmem hheader => ?_
    refine hnone ⟨header, ?_, hheader⟩
    simpa [or_comm] using hmem
  exact Nat.lt_irrefl place hlt

/-- There are no loop headers exactly where there are no cycles. -/
theorem forall_not_isLoopHeader_iff :
    (∀ id, ¬ g.isLoopHeader id) ↔ g.function.Acyclic := by
  constructor
  · intro hnone id hreach hloop
    obtain ⟨rest, hcycle⟩ := Function.exists_cycle_iff.mpr hloop
    obtain ⟨header, -, hheader⟩ := exists_isLoopHeader_of_cycle hreach hcycle
    exact hnone header hheader
  · intro hacyclic id hheader
    obtain ⟨-, -, target, -, -, htarget, -⟩ := isLoopHeader_iff.mp hheader
    exact hacyclic id (reachable_of_position? htarget) (transGen_of_isLoopHeader hheader)

/-- **The order and the loop headers are right for every flow graph.** The order is the reverse of
the depth-first post-order. It lists exactly the reachable blocks, each once and the entry first, and
tells the place of each. A block is a loop header exactly if it is reachable and an edge leads to it
from a reachable block at the same or a later place. Each loop header lies on a cycle, and each cycle
of reachable blocks has a loop header. So there are none exactly if there are no cycles, and then all
edges between reachable blocks lead to later places. -/
theorem order_cuts_cycles (g : Flow) :
    (∀ left, g.function.PostOrder left ↔ g.order = left.reverse) ∧
    (∀ id, id ∈ g.orderIds ↔ g.function.Reachable id) ∧
    g.orderIds.Nodup ∧
    g.orderIds.head? = some g.function.entry ∧
    (∀ id place, g.position? id = some place ↔ g.orderIds[place]? = some id) ∧
    (∀ id, g.isLoopHeader id ↔ g.function.Reachable id ∧
      ∃ source place target, g.function.Reachable source ∧ g.function.Edge source id ∧
        g.position? source = some place ∧ g.position? id = some target ∧ target ≤ place) ∧
    (∀ id, g.isLoopHeader id → ∃ rest, g.function.Cycle id rest) ∧
    (∀ first rest, g.function.Reachable first → g.function.Cycle first rest →
      ∃ header ∈ first :: rest, g.isLoopHeader header) ∧
    ((∀ id, ¬ g.isLoopHeader id) ↔ g.function.Acyclic) ∧
    (g.function.Acyclic → ∀ source id, g.function.Reachable source → g.function.Edge source id →
      ∃ place target, g.position? source = some place ∧ g.position? id = some target ∧
        place < target) := by
  refine ⟨fun _ => postOrder_iff, fun _ => mem_orderIds_iff, g.nodup_orderIds, g.head?_orderIds,
    fun _ _ => position?_eq_some_iff_getElem?, ?_,
    fun _ h => Function.exists_cycle_iff.mpr (transGen_of_isLoopHeader h),
    fun _ _ => exists_isLoopHeader_of_cycle, forall_not_isLoopHeader_iff, ?_⟩
  · intro id
    rw [isLoopHeader_iff]
    constructor
    · rintro ⟨source, place, target, hedge, hplace, htarget, hle⟩
      exact ⟨reachable_of_position? htarget, source, place, target, reachable_of_position? hplace,
        hedge, hplace, htarget, hle⟩
    · rintro ⟨-, source, place, target, -, hrest⟩
      exact ⟨source, place, target, hrest⟩
  · intro hacyclic source id hsource hedge
    obtain ⟨place, hplace⟩ := exists_position? hsource
    obtain ⟨target, htarget⟩ := exists_position? (hsource.tail hedge)
    have hheader := forall_not_isLoopHeader_iff.mpr hacyclic id
    exact ⟨place, target, hplace, htarget, position_lt_of_edge hedge hplace htarget hheader⟩

end Flow

end BufferBounds
