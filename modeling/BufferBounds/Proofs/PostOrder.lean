import BufferBounds.Proofs.Reachability

/-!
# Depth-first post-order

A depth-first search goes down from a block before it goes on beside it, and leaves a block when all
below it was visited. Here this is said by rules, one for each thing that can happen to a list of
names that are to be visited, without tasks that are put off. The order of a flow graph is the
order in which such a search leaves the blocks, read backwards.

The rules determine the search, as each of its runs is one of `Function.search`; and there always is
a run, as fewer blocks are unseen each time it goes down.
-/

namespace BufferBounds

namespace Function

variable {f : Function} {seen seen' ids : List String} {left : List Block}

/-- A depth-first search of the blocks named `ids`, one after the other, when those in `seen` were
entered before. Those in `seen'` were entered when it is done, and it leaves `left`, the first one
first. -/
inductive DepthFirst (f : Function) :
    List String → List String → List String → List Block → Prop where
  /-- nothing is left to visit -/
  | nil {seen : List String} : DepthFirst f seen [] seen []
  /-- a block that was entered before is not entered again -/
  | skip {seen seen' ids : List String} {left : List Block} {id : String} (hid : id ∈ seen)
      (hbeside : DepthFirst f seen ids seen' left) : DepthFirst f seen (id :: ids) seen' left
  /-- a new block is left after all that its edges lead to, which is visited in their order -/
  | visit {seen between seen' ids : List String} {below beside : List Block} {id : String}
      {b : Block} (hid : id ∉ seen) (hb : f.block? id = some b)
      (hbelow : DepthFirst f (id :: seen) b.terminator.targets between below)
      (hbeside : DepthFirst f between ids seen' beside) :
      DepthFirst f seen (id :: ids) seen' (below ++ b :: beside)

/-- The blocks in the order in which a depth-first search from the entry leaves them. -/
def PostOrder (f : Function) (left : List Block) : Prop :=
  ∃ seen, f.DepthFirst [] [f.entry] seen left

namespace DepthFirst

/-- What was entered stays entered. -/
theorem subset (h : f.DepthFirst seen ids seen' left) : seen ⊆ seen' := by
  induction h with
  | nil => exact List.Subset.refl _
  | skip _ _ ih => exact ih
  | visit _ _ _ _ ihbelow ihbeside =>
    exact List.Subset.trans (List.Subset.trans (List.subset_cons_self _ _) ihbelow) ihbeside

/-- The search with tasks works off the names in the same way before it turns to other tasks. -/
theorem search_eq (h : f.DepthFirst seen ids seen' left) (tasks : List SearchTask)
    (found : List Block) :
    f.search (ids.map .enter ++ tasks) seen found = f.search tasks seen' (left.reverse ++ found) := by
  induction h generalizing tasks found with
  | nil => rfl
  | @skip seen seen' ids left id hid _ ih =>
    rw [List.map_cons, List.cons_append, search, dif_pos hid, ih]
  | @visit seen between seen' ids below beside id b hid hb _ _ ihbelow ihbeside =>
    have henter : f.search (.enter id :: (ids.map .enter ++ tasks)) seen found =
        f.search (b.terminator.targets.map .enter ++ .leave b :: (ids.map .enter ++ tasks))
          (id :: seen) found := by
      rw [search, dif_neg hid]
      split
      · rename_i hnone
        rw [hb] at hnone
        cases hnone
      · rename_i c hc
        rw [hb] at hc
        cases hc
        rfl
    calc f.search ((id :: ids).map .enter ++ tasks) seen found
      _ = f.search (.leave b :: (ids.map .enter ++ tasks)) between (below.reverse ++ found) := by
        rw [List.map_cons, List.cons_append, henter, ihbelow]
      _ = f.search (ids.map .enter ++ tasks) between (b :: (below.reverse ++ found)) := by
        rw [search]
      _ = f.search tasks seen' ((below ++ b :: beside).reverse ++ found) := by
        rw [ihbeside]
        simp only [List.reverse_append, List.reverse_cons, List.append_assoc, List.cons_append,
          List.nil_append]

end DepthFirst

/-- The more was seen, the less is unseen. -/
theorem unseen_le_unseen (hsub : seen ⊆ seen') : f.unseen seen' ≤ f.unseen seen := by
  apply List.countP_mono_left
  intro id _ hid
  rw [decide_eq_true_eq] at hid ⊢
  exact fun hseen => hid (hsub hseen)

/-- Blocks that exist can be searched. -/
theorem exists_depthFirst (hf : f.WellFormed) (seen ids : List String) (hids : ids ⊆ f.ids) :
    ∃ seen' left, f.DepthFirst seen ids seen' left := by
  match ids, hids with
  | [], _ => exact ⟨seen, [], .nil⟩
  | id :: ids, hids =>
    obtain ⟨hid, hids⟩ := List.cons_subset.mp hids
    by_cases hseen : id ∈ seen
    · obtain ⟨seen', left, h⟩ := exists_depthFirst hf seen ids hids
      exact ⟨seen', left, .skip hseen h⟩
    · obtain ⟨b, hb⟩ := exists_block? hid
      have hlt := unseen_cons_lt hid hseen
      obtain ⟨between, below, hbelow⟩ := exists_depthFirst hf (id :: seen) b.terminator.targets
        fun _ ht => hf.target_mem_ids hb ht
      have hle : f.unseen between ≤ f.unseen (id :: seen) := unseen_le_unseen hbelow.subset
      obtain ⟨seen', beside, hbeside⟩ := exists_depthFirst hf between ids hids
      exact ⟨seen', _, .visit hseen hb hbelow hbeside⟩
termination_by (f.unseen seen, ids.length)

/-- A search from the entry leaves the entry last. -/
theorem PostOrder.eq_append_entry (h : f.PostOrder left) :
    ∃ below b, left = below ++ [b] ∧ b.id = f.entry := by
  obtain ⟨seen, h⟩ := h
  cases h with
  | skip hid _ => cases hid
  | @visit _ _ _ _ below beside _ b _ hb _ hbeside =>
    cases hbeside
    exact ⟨below, b, rfl, (mem_blocks_of_block? hb).2⟩

end Function

namespace Flow

/-- There is one post-order, and the order of the blocks is its reverse. -/
theorem postOrder_iff {g : Flow} {left : List Block} :
    g.function.PostOrder left ↔ g.order = left.reverse := by
  have horder : ∀ {left}, g.function.PostOrder left → g.order = left.reverse := by
    rintro left ⟨seen, h⟩
    have hsearch := h.search_eq [] []
    rw [List.append_nil, List.append_nil, Function.search] at hsearch
    rw [g.order_eq]
    exact hsearch
  constructor
  · exact horder
  · intro heq
    obtain ⟨seen, left', h⟩ := Function.exists_depthFirst g.wellFormed [] [g.function.entry]
      (List.cons_subset.mpr ⟨g.wellFormed.entry_mem_ids, List.nil_subset _⟩)
    have hleft : left'.reverse = left.reverse := (horder ⟨seen, h⟩).symm.trans heq
    exact ⟨seen, List.reverse_injective hleft ▸ h⟩

/-- The entry is the first in the order. -/
theorem head?_orderIds (g : Flow) : g.orderIds.head? = some g.function.entry := by
  obtain ⟨below, b, heq, hid⟩ := (postOrder_iff.mpr g.order.reverse_reverse.symm).eq_append_entry
  rw [orderIds, List.reverse_eq_iff.mp heq, List.reverse_concat, List.map_cons, List.head?_cons, hid]

end Flow

end BufferBounds
