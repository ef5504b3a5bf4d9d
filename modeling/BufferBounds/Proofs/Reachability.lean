import BufferBounds.Flow
import Mathlib.Data.List.Nodup
import Mathlib.Logic.Relation

/-!
# Reachability

Which blocks can be reached is said here by paths of edges, without any search. The search from the
entry then finds exactly these blocks, each once: this is the order of a flow graph as far as it is
a set. What the search holds between two tasks is its invariant `Explored`.
-/

namespace BufferBounds

namespace Block

variable {blocks : List Block} {place : Nat}

/-- Where no name is given twice the block that a name finds stands where the name does. -/
theorem findIdx?_id_eq_some_iff (hnodup : (blocks.map (·.id)).Nodup) {id : String} :
    blocks.findIdx? (·.id == id) = some place ↔ (blocks.map (·.id))[place]? = some id := by
  rw [List.findIdx?_eq_some_iff_getElem, List.getElem?_eq_some_iff]
  constructor
  · rintro ⟨hlt, hid, -⟩
    exact ⟨by rwa [List.length_map], by rw [List.getElem_map, beq_iff_eq.mp hid]⟩
  · rintro ⟨hlt, hid⟩
    rw [List.length_map] at hlt
    rw [List.getElem_map] at hid
    refine ⟨hlt, beq_iff_eq.mpr hid, fun i hi heq => ?_⟩
    -- an earlier block of this name would be a second one
    have hne := List.pairwise_iff_getElem.mp hnodup i place
      (by rw [List.length_map]; exact Nat.lt_trans hi hlt) (by rwa [List.length_map]) hi
    rw [List.getElem_map, List.getElem_map] at hne
    exact hne ((beq_iff_eq.mp heq).trans hid.symm)

/-- Where no name is given twice a block is found by its name where it stands. -/
theorem findIdx?_eq_some_iff (hnodup : (blocks.map (·.id)).Nodup) {b : Block} (hb : b ∈ blocks) :
    blocks.findIdx? (·.id == b.id) = some place ↔ blocks[place]? = some b := by
  rw [findIdx?_id_eq_some_iff hnodup, List.getElem?_map, Option.map_eq_some_iff]
  constructor
  · rintro ⟨c, hc, hid⟩
    rwa [List.inj_on_of_nodup_map hnodup hb (List.mem_of_getElem? hc) hid.symm]
  · intro h
    exact ⟨b, h, rfl⟩

end Block

namespace Function

/-! ## Paths -/

/-- Some edge leads from the one block to the other. -/
def Edge (f : Function) (source target : String) : Prop :=
  ∃ b, f.block? source = some b ∧ target ∈ b.terminator.targets

/-- A path of edges leads from the entry to the block. -/
def Reachable (f : Function) (id : String) : Prop := Relation.ReflTransGen f.Edge f.entry id

/-- No path leads from a reachable block back to it. -/
def Acyclic (f : Function) : Prop := ∀ id, f.Reachable id → ¬ Relation.TransGen f.Edge id id

/-- A function has no loops if its edges lead only upwards. -/
theorem acyclic_of_rank {f : Function} (rank : String → Nat)
    (h : ∀ b ∈ f.blocks, ∀ target ∈ b.terminator.targets, rank b.id < rank target) :
    f.Acyclic := by
  have hedge : ∀ source target, f.Edge source target → rank source < rank target := by
    rintro source target ⟨b, hb, ht⟩
    have hid : b.id = source := by simpa using List.find?_some hb
    exact hid ▸ h b (List.mem_of_find?_eq_some hb) target ht
  intro id _ hloop
  have hlt : ∀ target, Relation.TransGen f.Edge id target → rank id < rank target := by
    intro target hpath
    induction hpath with
    | single h => exact hedge _ _ h
    | tail _ h ih => exact Nat.lt_trans ih (hedge _ _ h)
  exact Nat.lt_irrefl _ (hlt id hloop)

theorem mem_blocks_of_block? {f : Function} {id : String} {b : Block} (h : f.block? id = some b) :
    b ∈ f.blocks ∧ b.id = id :=
  ⟨List.mem_of_find?_eq_some h, by simpa using List.find?_some h⟩

theorem exists_block? {f : Function} {id : String} (h : id ∈ f.ids) :
    ∃ b, f.block? id = some b := by
  obtain ⟨b, hb, rfl⟩ := List.mem_map.mp h
  exact Option.isSome_iff_exists.mp (List.find?_isSome.mpr ⟨b, hb, beq_self_eq_true b.id⟩)

namespace WellFormed

variable {f : Function} (hf : f.WellFormed)
include hf

/-- The name of a block tells which block it is. -/
theorem eq_of_id_eq {b c : Block} (hb : b ∈ f.blocks) (hc : c ∈ f.blocks) (h : b.id = c.id) :
    b = c :=
  List.inj_on_of_nodup_map hf.nodup_ids hb hc h

theorem block?_id {b : Block} (hb : b ∈ f.blocks) : f.block? b.id = some b := by
  obtain ⟨c, hc⟩ := exists_block? (List.mem_map_of_mem hb)
  obtain ⟨hmem, hid⟩ := mem_blocks_of_block? hc
  rw [hc, hf.eq_of_id_eq hmem hb hid]

theorem target_mem_ids {id : String} {b : Block} (hb : f.block? id = some b) {target : String}
    (ht : target ∈ b.terminator.targets) : target ∈ f.ids :=
  hf.targets_mem_ids b (mem_blocks_of_block? hb).1 target ht

end WellFormed

/-! ## The search

A block is open from when it is entered until it is left. The names seen are those of the blocks
that are open or were left. -/

/-- The blocks that are still to be left. -/
def openBlocks (tasks : List SearchTask) : List Block :=
  tasks.filterMap fun
    | .enter _ => none
    | .leave b => some b

/-- What holds of the search between two tasks. -/
structure Explored (f : Function) (tasks : List SearchTask) (seen : List String)
    (found : List Block) : Prop where
  /-- the names seen are those of the blocks that are open or were left -/
  perm : ((openBlocks tasks ++ found).map (·.id)).Perm seen
  /-- no block is entered twice -/
  nodup : seen.Nodup
  /-- these are reachable blocks of the function -/
  block : ∀ b ∈ openBlocks tasks ++ found, f.block? b.id = some b ∧ f.Reachable b.id
  /-- a block to be visited is a reachable one -/
  enter : ∀ id, .enter id ∈ tasks → id ∈ f.ids ∧ f.Reachable id
  /-- what they lead to was seen or is to be visited -/
  closed : ∀ b ∈ openBlocks tasks ++ found, ∀ target ∈ b.terminator.targets,
    target ∈ seen ∨ .enter target ∈ tasks

namespace Explored

variable {f : Function} {tasks : List SearchTask} {seen : List String} {found : List Block}

theorem start (hf : f.WellFormed) : f.Explored [.enter f.entry] [] [] where
  perm := List.Perm.nil
  nodup := List.nodup_nil
  block := nofun
  enter := by
    intro id hid
    obtain rfl : id = f.entry := by simpa using hid
    exact ⟨hf.entry_mem_ids, Relation.ReflTransGen.refl⟩
  closed := nofun

theorem leave {b : Block} (h : f.Explored (.leave b :: tasks) seen found) :
    f.Explored tasks seen (b :: found) := by
  have hperm : (openBlocks tasks ++ b :: found).Perm (openBlocks (.leave b :: tasks) ++ found) :=
    List.perm_middle
  refine ⟨(hperm.map _).trans h.perm, h.nodup, ?_, ?_, ?_⟩
  · intro c hc
    exact h.block c (hperm.mem_iff.mp hc)
  · intro id hid
    exact h.enter id (List.mem_cons_of_mem _ hid)
  · intro c hc target ht
    have := h.closed c (hperm.mem_iff.mp hc) target ht
    simpa using this

theorem skip {id : String} (h : f.Explored (.enter id :: tasks) seen found) (hid : id ∈ seen) :
    f.Explored tasks seen found := by
  refine ⟨h.perm, h.nodup, h.block, fun id' hid' => h.enter id' (List.mem_cons_of_mem _ hid'), ?_⟩
  intro b hb target ht
  rcases h.closed b hb target ht with hseen | htask
  · exact Or.inl hseen
  · rcases List.mem_cons.mp htask with heq | htask
    · cases heq
      exact Or.inl hid
    · exact Or.inr htask

theorem openBlocks_visit (b : Block) (tasks : List SearchTask) :
    openBlocks (b.terminator.targets.map .enter ++ .leave b :: tasks) = b :: openBlocks tasks := by
  have hnone : openBlocks (b.terminator.targets.map .enter) = [] := by
    simp [openBlocks]
  rw [openBlocks] at hnone ⊢
  rw [List.filterMap_append, hnone]
  rfl

theorem visit (hf : f.WellFormed) {id : String} {b : Block}
    (h : f.Explored (.enter id :: tasks) seen found) (hid : id ∉ seen) (hb : f.block? id = some b) :
    f.Explored (b.terminator.targets.map .enter ++ .leave b :: tasks) (id :: seen) found := by
  obtain ⟨-, hreach⟩ := h.enter id (List.mem_cons_self ..)
  obtain ⟨-, rfl⟩ := mem_blocks_of_block? hb
  have hopen := openBlocks_visit b tasks
  refine ⟨?_, List.nodup_cons.mpr ⟨hid, h.nodup⟩, ?_, ?_, ?_⟩
  · rw [hopen]
    exact h.perm.cons b.id
  · intro c hc
    rw [hopen] at hc
    rcases List.mem_cons.mp hc with rfl | hc
    · exact ⟨hb, hreach⟩
    · exact h.block c hc
  · intro target ht
    rcases List.mem_append.mp ht with ht | ht
    · obtain ⟨target', ht', heq⟩ := List.mem_map.mp ht
      cases heq
      exact ⟨hf.target_mem_ids hb ht', hreach.tail ⟨b, hb, ht'⟩⟩
    · exact h.enter target (List.mem_cons_of_mem _ (by simpa using ht))
  · intro c hc target ht
    rw [hopen] at hc
    rcases List.mem_cons.mp hc with rfl | hc
    · exact Or.inr (List.mem_append_left _ (List.mem_map_of_mem ht))
    · rcases h.closed c hc target ht with hseen | htask
      · exact Or.inl (List.mem_cons_of_mem _ hseen)
      · rcases List.mem_cons.mp htask with heq | htask
        · cases heq
          exact Or.inl (List.mem_cons_self ..)
        · exact Or.inr (List.mem_append_right _ (List.mem_cons_of_mem _ htask))

/-- The invariant holds when the search is done, and all that was seen or was to be visited is
among what was found. -/
theorem search (hf : f.WellFormed) (h : f.Explored tasks seen found) :
    ∃ seen', f.Explored [] seen' (f.search tasks seen found) ∧ seen ⊆ seen' ∧
      ∀ id, .enter id ∈ tasks → id ∈ seen' := by
  fun_induction Function.search f tasks seen found with
  | case1 seen found => exact ⟨seen, h, List.Subset.refl _, nofun⟩
  | case2 seen found b tasks ih =>
    obtain ⟨seen', hdone, hsub, henter⟩ := ih h.leave
    exact ⟨seen', hdone, hsub, fun id hid => henter id (by simpa using hid)⟩
  | case3 seen found id tasks hseen ih =>
    obtain ⟨seen', hdone, hsub, henter⟩ := ih (h.skip hseen)
    refine ⟨seen', hdone, hsub, fun id' hid' => ?_⟩
    rcases List.mem_cons.mp hid' with heq | hid'
    · cases heq
      exact hsub hseen
    · exact henter id' hid'
  | case4 seen found id tasks hseen hb ih =>
    obtain ⟨b, hb'⟩ := exists_block? (h.enter id (List.mem_cons_self ..)).1
    rw [hb] at hb'
    cases hb'
  | case5 seen found id tasks hseen b hb ih =>
    obtain ⟨seen', hdone, hsub, henter⟩ := ih (h.visit hf hseen hb)
    have hsub' : seen ⊆ seen' := fun x hx => hsub (List.mem_cons_of_mem _ hx)
    refine ⟨seen', hdone, hsub', fun id' hid' => ?_⟩
    rcases List.mem_cons.mp hid' with heq | hid'
    · cases heq
      exact hsub (List.mem_cons_self ..)
    · exact henter id' (List.mem_append_right _ (List.mem_cons_of_mem _ hid'))

end Explored

end Function

/-! ## The order of a flow graph -/

namespace Flow

/-- Exactly the well-formed functions are flow graphs, each with one order. -/
theorem ofFunction_eq_ok_iff {f : Function} {g : Flow} : ofFunction f = .ok g ↔ g.function = f := by
  rw [ofFunction]
  constructor
  · intro h
    split at h
    · cases h
    · cases h
      rfl
  · rintro rfl
    have hnone := (g.function.fault?_eq_none_iff).mpr g.wellFormed
    split
    · rename_i error herror
      rw [hnone] at herror
      cases herror
    · cases g
      simp_all

/-- The search has found the order, and nothing is left for it to do. -/
theorem explored_order (g : Flow) :
    ∃ seen, g.function.Explored [] seen g.order ∧ g.function.entry ∈ seen := by
  obtain ⟨seen, hdone, -, henter⟩ := (Function.Explored.start g.wellFormed).search g.wellFormed
  refine ⟨seen, ?_, henter _ (List.mem_singleton_self _)⟩
  rw [g.order_eq]
  exact hdone

/-- No block is visited twice. -/
theorem nodup_orderIds (g : Flow) : g.orderIds.Nodup := by
  obtain ⟨seen, hdone, -⟩ := g.explored_order
  exact hdone.perm.nodup_iff.mpr hdone.nodup

theorem block?_of_mem_order {g : Flow} {b : Block} (hb : b ∈ g.order) :
    g.function.block? b.id = some b := by
  obtain ⟨seen, hdone, -⟩ := g.explored_order
  exact (hdone.block b hb).1

theorem mem_blocks_of_mem_order {g : Flow} {b : Block} (hb : b ∈ g.order) :
    b ∈ g.function.blocks :=
  (Function.mem_blocks_of_block? (block?_of_mem_order hb)).1

theorem eq_of_id_eq {g : Flow} {b c : Block} (hb : b ∈ g.order) (hc : c ∈ g.order)
    (h : b.id = c.id) : b = c :=
  g.wellFormed.eq_of_id_eq (mem_blocks_of_mem_order hb) (mem_blocks_of_mem_order hc) h

/-- The blocks that are visited are those that can be reached. -/
theorem mem_orderIds_iff {g : Flow} {id : String} : id ∈ g.orderIds ↔ g.function.Reachable id := by
  obtain ⟨seen, hdone, hentry⟩ := g.explored_order
  have hseen : ∀ id, id ∈ g.orderIds ↔ id ∈ seen := fun _ => hdone.perm.mem_iff
  constructor
  · intro hid
    obtain ⟨b, hb, rfl⟩ := List.mem_map.mp hid
    exact (hdone.block b hb).2
  · intro hid
    induction hid with
    | refl => exact (hseen _).mpr hentry
    | tail _ hedge ih =>
      -- what a visited block leads to was seen, as no task is left
      obtain ⟨b, hb, ht⟩ := hedge
      obtain ⟨c, hc, rfl⟩ := List.mem_map.mp ih
      obtain rfl : c = b := by
        rw [block?_of_mem_order hc] at hb
        exact Option.some.inj hb
      rcases hdone.closed c hc _ ht with h | h
      · exact (hseen _).mpr h
      · cases h

theorem mem_order_iff {g : Flow} {b : Block} :
    b ∈ g.order ↔ b ∈ g.function.blocks ∧ g.function.Reachable b.id := by
  constructor
  · intro hb
    exact ⟨mem_blocks_of_mem_order hb, mem_orderIds_iff.mp (List.mem_map_of_mem hb)⟩
  · rintro ⟨hb, hreach⟩
    obtain ⟨c, hc, hid⟩ := List.mem_map.mp (mem_orderIds_iff.mpr hreach)
    rwa [g.wellFormed.eq_of_id_eq hb (mem_blocks_of_mem_order hc) hid.symm]

/-- The order and the places of the blocks are inverse to each other. -/
theorem position?_eq_some_iff_getElem? {g : Flow} {id : String} {place : Nat} :
    g.position? id = some place ↔ g.orderIds[place]? = some id :=
  Block.findIdx?_id_eq_some_iff g.nodup_orderIds

/-- A place of the order is the place of the block that stands there. -/
theorem position?_eq_some_iff {g : Flow} {b : Block} (hb : b ∈ g.order) {place : Nat} :
    g.position? b.id = some place ↔ g.order[place]? = some b :=
  Block.findIdx?_eq_some_iff g.nodup_orderIds hb

/-- No block stands at two places. -/
theorem place_eq_of_id_eq {g : Flow} {b c : Block} {place place' : Nat}
    (hb : g.order[place]? = some b) (hc : g.order[place']? = some c) (h : b.id = c.id) :
    place = place' := by
  have hplace := (position?_eq_some_iff (List.mem_of_getElem? hb)).mpr hb
  have hplace' := (position?_eq_some_iff (List.mem_of_getElem? hc)).mpr hc
  rw [h, hplace'] at hplace
  exact (Option.some.inj hplace).symm

theorem isReachable_iff {g : Flow} {id : String} :
    g.isReachable id = true ↔ g.function.Reachable id := by
  rw [← mem_orderIds_iff, isReachable, position?, List.findIdx?_isSome, List.any_eq_true]
  simp [orderIds]

end Flow

end BufferBounds
