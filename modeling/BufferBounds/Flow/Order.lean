import BufferBounds.Function

/-!
# The order of the blocks

Blocks are visited in the reverse of the order in which a depth-first search from the entry leaves
them. The search follows the edges of a block in their order, the true branch first. In this order
a block comes before the blocks it leads to, except along edges that close a loop.

The search keeps a list of things to do instead of calling itself. Entering a block puts its
targets on the list, and behind them the note to leave the block again.
-/

namespace BufferBounds

namespace Function

/-- A thing to do for the search. -/
inductive SearchTask where
  /-- visit the block of this name, unless it was visited before -/
  | enter (id : String)
  /-- all that follows the block was visited: put it in front of what was left before it -/
  | leave (block : Block)

/-- How many blocks have a name that was not seen yet. -/
def unseen (f : Function) (seen : List String) : Nat :=
  f.ids.countP fun id => decide (id ∉ seen)

theorem countP_lt_countP {α : Type} {p q : α → Bool} {x : α} :
    ∀ {l : List α}, (∀ y, p y → q y) → x ∈ l → q x → ¬ p x → l.countP p < l.countP q
  | y :: l, hpq, hx, hq, hp => by
    have hle : l.countP p ≤ l.countP q := List.countP_mono_left fun y _ => hpq y
    simp only [List.countP_cons]
    rcases List.mem_cons.mp hx with rfl | hx
    · simp only [hp, hq, if_true, Bool.false_eq_true, if_false]
      omega
    · have hlt := countP_lt_countP hpq hx hq hp
      by_cases hy : p y
      · rw [if_pos hy, if_pos (hpq y hy)]
        omega
      · rw [if_neg hy]
        omega

/-- Seeing a new block leaves fewer to see. -/
theorem unseen_cons_lt {f : Function} {seen : List String} {id : String} (hid : id ∈ f.ids)
    (hnew : id ∉ seen) : f.unseen (id :: seen) < f.unseen seen := by
  apply countP_lt_countP (x := id) _ hid
  · simpa using hnew
  · simp
  · intro y hy
    simp only [List.mem_cons, not_or, decide_eq_true_eq] at hy ⊢
    exact hy.2

theorem mem_ids_of_block? {f : Function} {id : String} {b : Block} (h : f.block? id = some b) :
    id ∈ f.ids := by
  have hb := List.find?_some h
  rw [← beq_iff_eq.mp hb]
  exact List.mem_map_of_mem (List.mem_of_find?_eq_some h)

end Function

theorem Terminator.length_targets_le (t : Terminator) : t.targets.length ≤ 2 := by
  cases t <;> simp [Terminator.targets, Terminator.edges]

namespace Function

/-- Works off the tasks. `seen` holds the names of the blocks entered so far, `found` the blocks
left so far, the last one first. -/
def search (f : Function) (tasks : List SearchTask) (seen : List String) (found : List Block) :
    List Block :=
  match tasks with
  | [] => found
  | .leave b :: tasks => f.search tasks seen (b :: found)
  | .enter id :: tasks =>
    if _hseen : id ∈ seen then f.search tasks seen found
    else
      match _hb : f.block? id with
      | none => f.search tasks seen found
      | some b =>
        f.search (b.terminator.targets.map .enter ++ .leave b :: tasks) (id :: seen) found
termination_by 3 * f.unseen seen + tasks.length
decreasing_by
  · simp
  · simp
  · simp
  · have hlt := unseen_cons_lt (mem_ids_of_block? _hb) _hseen
    have hle := b.terminator.length_targets_le
    simp only [List.length_append, List.length_map, List.length_cons]
    omega

/-- The blocks that can be reached from the entry, in the order they are visited in. -/
def visitOrder (f : Function) : List Block :=
  f.search [.enter f.entry] [] []

end Function

end BufferBounds
