import BufferBounds.Proofs.Reachability

/-!
# Edges in the order of the search

The order of a flow graph is the order of a depth-first search. An edge leads on to a later place in
it, or else back to a block that leads to the start of the edge. So where there are no loops every
edge leads to a later place.

The invariant `Nested` says how the blocks lie that the search is in: the open ones are on one path,
and before one of them is left all that it leads to is visited.
-/

namespace BufferBounds

namespace Function

variable {f : Function} {tasks : List SearchTask} {seen : List String} {found : List Block}

/-! ## Tasks -/

/-- The name of the block that a task is about. -/
def SearchTask.id : SearchTask → String
  | .enter id => id
  | .leave b => b.id

theorem mem_openBlocks {b : Block} : b ∈ openBlocks tasks ↔ .leave b ∈ tasks := by
  rw [openBlocks, List.mem_filterMap]
  constructor
  · rintro ⟨task, htask, heq⟩
    cases task with
    | enter id => cases heq
    | leave c =>
      obtain rfl : c = b := Option.some.inj heq
      exact htask
  · intro hb
    exact ⟨_, hb, rfl⟩

/-- When a block is left all that it leads to is seen, if what is to be visited before is seen by
then. -/
def Ahead : List String → List SearchTask → Prop
  | _, [] => True
  | seen, .enter id :: tasks => Ahead (id :: seen) tasks
  | seen, .leave b :: tasks =>
    (∀ target ∈ b.terminator.targets, target ∈ seen) ∧ Ahead seen tasks

theorem Ahead.mono {seen' : List String} (h : Ahead seen tasks) (hsub : seen ⊆ seen') :
    Ahead seen' tasks := by
  induction tasks generalizing seen seen' with
  | nil => trivial
  | cons task tasks ih =>
    cases task with
    | enter id => exact ih h (List.cons_subset_cons id hsub)
    | leave b =>
      obtain ⟨htargets, hrest⟩ := h
      exact ⟨fun target ht => hsub (htargets target ht), ih hrest hsub⟩

theorem ahead_enter_append {ids : List String}
    (h : ∀ seen', ids ⊆ seen' → seen ⊆ seen' → Ahead seen' tasks) :
    Ahead seen (ids.map .enter ++ tasks) := by
  induction ids generalizing seen with
  | nil => exact h seen (List.nil_subset _) (List.Subset.refl _)
  | cons id ids ih =>
    apply ih
    intro seen' hids hseen
    obtain ⟨hid, hseen⟩ := List.cons_subset.mp hseen
    exact h seen' (List.cons_subset.mpr ⟨hid, hids⟩) hseen

/-- If the second task is to leave a block, a path leads from there to what the first one is about. -/
def Below (f : Function) (x y : SearchTask) : Prop :=
  ∀ b, y = .leave b → Relation.ReflTransGen f.Edge b.id x.id

/-- Each block leads to blocks that come behind it in the list, or back to such as lead to it. -/
def Descends (f : Function) : List Block → Prop
  | [] => True
  | b :: found =>
    (∀ target ∈ b.terminator.targets,
      target ∈ found.map (·.id) ∨ Relation.ReflTransGen f.Edge target b.id) ∧
    Descends f found

theorem Descends.getElem? {place : Nat} {b : Block} {target : String} (h : f.Descends found)
    (hb : found[place]? = some b) (ht : target ∈ b.terminator.targets) :
    target ∈ (found.drop (place + 1)).map (·.id) ∨ Relation.ReflTransGen f.Edge target b.id := by
  induction found generalizing place with
  | nil => cases hb
  | cons c found ih =>
    cases place with
    | zero =>
      obtain rfl : c = b := Option.some.inj hb
      exact h.1 target ht
    | succ place =>
      rw [List.getElem?_cons_succ] at hb
      exact ih h.2 hb

/-! ## The invariant -/

/-- How the blocks lie that the search is in, between two tasks. -/
structure Nested (f : Function) (tasks : List SearchTask) (seen : List String)
    (found : List Block) : Prop where
  /-- what was seen and found so far -/
  explored : f.Explored tasks seen found
  /-- what an open block leads to is visited before it is left -/
  ahead : Ahead seen tasks
  /-- an open block leads to what is done before it is left -/
  path : tasks.Pairwise f.Below
  /-- edges lead to blocks that were left earlier, or back -/
  descends : f.Descends found

namespace Nested

theorem start (hf : f.WellFormed) : f.Nested [.enter f.entry] [] [] where
  explored := Explored.start hf
  ahead := trivial
  path := List.pairwise_singleton _ _
  descends := trivial

theorem leave {b : Block} (h : f.Nested (.leave b :: tasks) seen found) :
    f.Nested tasks seen (b :: found) where
  explored := h.explored.leave
  ahead := h.ahead.2
  path := h.path.of_cons
  descends := by
    refine ⟨?_, h.descends⟩
    intro target ht
    -- what the block leads to is open or was left, as it was seen
    have hseen := h.explored.perm.mem_iff.mpr (h.ahead.1 target ht)
    obtain ⟨c, hc, rfl⟩ := List.mem_map.mp hseen
    rcases List.mem_append.mp hc with hopen | hfound
    · right
      rcases List.mem_cons.mp (mem_openBlocks.mp hopen) with heq | htask
      · cases heq
        exact Relation.ReflTransGen.refl
      · exact (List.pairwise_cons.mp h.path).1 _ htask c rfl
    · left
      exact List.mem_map_of_mem hfound

theorem skip {id : String} (h : f.Nested (.enter id :: tasks) seen found) (hid : id ∈ seen) :
    f.Nested tasks seen found where
  explored := h.explored.skip hid
  ahead := by
    have hahead : Ahead (id :: seen) tasks := h.ahead
    exact hahead.mono (List.cons_subset.mpr ⟨hid, List.Subset.refl _⟩)
  path := h.path.of_cons
  descends := h.descends

theorem visit (hf : f.WellFormed) {id : String} {b : Block}
    (h : f.Nested (.enter id :: tasks) seen found) (hid : id ∉ seen) (hb : f.block? id = some b) :
    f.Nested (b.terminator.targets.map .enter ++ .leave b :: tasks) (id :: seen) found where
  explored := h.explored.visit hf hid hb
  ahead := by
    have hahead : Ahead (id :: seen) tasks := h.ahead
    apply ahead_enter_append
    intro seen' htargets hseen
    exact ⟨fun target ht => htargets ht, hahead.mono hseen⟩
  path := by
    obtain ⟨-, rfl⟩ := mem_blocks_of_block? hb
    obtain ⟨hbelow, hpath⟩ := List.pairwise_cons.mp h.path
    refine List.pairwise_append.mpr ⟨?_, List.pairwise_cons.mpr ⟨hbelow, hpath⟩, ?_⟩
    · apply List.pairwise_map.mpr
      exact List.pairwise_of_forall fun _ _ _ heq => nomatch heq
    · intro x hx y hy c hc
      obtain ⟨target, ht, rfl⟩ := List.mem_map.mp hx
      have hedge : f.Edge b.id target := ⟨b, hb, ht⟩
      rcases List.mem_cons.mp hy with rfl | hy
      · cases hc
        exact Relation.ReflTransGen.single hedge
      · exact (hbelow y hy c hc).tail hedge
  descends := h.descends

/-- The invariant holds of what was found when the search is done. -/
theorem search (hf : f.WellFormed) (h : f.Nested tasks seen found) :
    f.Descends (f.search tasks seen found) := by
  fun_induction Function.search f tasks seen found with
  | case1 seen found => exact h.descends
  | case2 seen found b tasks ih => exact ih h.leave
  | case3 seen found id tasks hseen ih => exact ih (h.skip hseen)
  | case4 seen found id tasks hseen hb ih =>
    obtain ⟨b, hb'⟩ := exists_block? (h.explored.enter id (List.mem_cons_self ..)).1
    rw [hb] at hb'
    cases hb'
  | case5 seen found id tasks hseen b hb ih => exact ih (h.visit hf hseen hb)

end Nested

end Function

/-! ## The order of a flow graph -/

namespace Flow

variable {g : Flow} {b c : Block} {place target : Nat}

theorem descends_order (g : Flow) : g.function.Descends g.order := by
  rw [g.order_eq]
  exact (Function.Nested.start g.wellFormed).search g.wellFormed

/-- An edge that leads to no later place leads to a block from which a path leads to its start. -/
theorem reaches_of_place_le (hb : g.order[place]? = some b) (hc : g.order[target]? = some c)
    (ht : c.id ∈ b.terminator.targets) (hle : target ≤ place) :
    Relation.ReflTransGen g.function.Edge c.id b.id := by
  rcases g.descends_order.getElem? hb ht with hbehind | hback
  · -- then the block would stand behind its own place
    obtain ⟨d, hd, hid⟩ := List.mem_map.mp hbehind
    obtain ⟨i, hi⟩ := List.mem_iff_getElem?.mp hd
    rw [List.getElem?_drop] at hi
    have hplace := place_eq_of_id_eq hc hi hid.symm
    omega
  · exact hback

/-- Where there are no loops every edge leads to a later place. -/
theorem place_lt_of_acyclic (hacyclic : g.function.Acyclic) (hb : g.order[place]? = some b)
    (hc : g.order[target]? = some c) (ht : c.id ∈ b.terminator.targets) : place < target := by
  by_contra hle
  have hmem := List.mem_of_getElem? hb
  have hedge : g.function.Edge b.id c.id := ⟨b, block?_of_mem_order hmem, ht⟩
  have hback := reaches_of_place_le hb hc ht (Nat.not_lt.mp hle)
  exact hacyclic b.id (mem_order_iff.mp hmem).2 (Relation.TransGen.head' hedge hback)

end Flow

end BufferBounds
