import BufferBounds.Proofs.Reachability

/-!
# Which functions are flow graphs

A function that is no flow graph has a first fault. What that is, is said here by where it lies in
the function, for each of the three kinds of faults, in the order in which they count. A function
without a fault is a flow graph, and this graph is the one that its terminators draw: the edges into
a block and the blocks it leads to are two views of the same edges.
-/

namespace BufferBounds

/-! ## The first fault -/

namespace Function

variable {f : Function}

/-- What the first fault of a function is. -/
inductive FirstFault (f : Function) : FlowError → Prop where
  /-- the first block whose name an earlier block has -/
  | duplicateBlock {before after : List Block} {b : Block}
      (hblocks : f.blocks = before ++ b :: after) (hbefore : (before.map (·.id)).Nodup)
      (hid : b.id ∈ before.map (·.id)) : FirstFault f (.duplicateBlock f.name b.id)
  /-- where no name is given twice: the entry, if it names no block -/
  | missingEntry (hids : f.ids.Nodup) (hentry : f.entry ∉ f.ids) :
      FirstFault f (.missingEntry f.name f.entry)
  /-- where the entry names a block, too: in the first block with such a target, the first target
  that names no block -/
  | unknownTarget {before after : List Block} {b : Block} {earlier later : List String}
      {target : String} (hids : f.ids.Nodup) (hentry : f.entry ∈ f.ids)
      (hblocks : f.blocks = before ++ b :: after)
      (hbefore : ∀ c ∈ before, ∀ t ∈ c.terminator.targets, t ∈ f.ids)
      (htargets : b.terminator.targets = earlier ++ target :: later)
      (hearlier : ∀ t ∈ earlier, t ∈ f.ids) (htarget : target ∉ f.ids) :
      FirstFault f (.unknownTarget f.name b.id target)

theorem exists_of_repeated? {seen ids : List String} {id : String}
    (h : repeated? seen ids = some id) :
    ∃ before after, ids = before ++ id :: after ∧ before.Nodup ∧ (∀ x ∈ before, x ∉ seen) ∧
      (id ∈ before ∨ id ∈ seen) := by
  induction ids generalizing seen with
  | nil => cases h
  | cons x ids ih =>
    rw [repeated?] at h
    split at h
    · rename_i hx
      obtain rfl := Option.some.inj h
      exact ⟨[], ids, rfl, List.nodup_nil, List.forall_mem_nil _, Or.inr hx⟩
    · rename_i hx
      obtain ⟨before, after, rfl, hnodup, hbefore, hid⟩ := ih h
      have hnew : x ∉ before := fun hmem => hbefore x hmem (List.mem_cons_self ..)
      have hold : ∀ y ∈ before, y ∉ seen := fun y hy hmem =>
        hbefore y hy (List.mem_cons_of_mem _ hmem)
      refine ⟨x :: before, after, rfl, List.nodup_cons.mpr ⟨hnew, hnodup⟩,
        List.forall_mem_cons.mpr ⟨hx, hold⟩, ?_⟩
      rw [List.mem_cons] at hid ⊢
      tauto

theorem repeated?_append_cons {seen before after : List String} {id : String}
    (hnodup : before.Nodup) (hbefore : ∀ x ∈ before, x ∉ seen) (hid : id ∈ before ∨ id ∈ seen) :
    repeated? seen (before ++ id :: after) = some id := by
  induction before generalizing seen with
  | nil => rw [List.nil_append, repeated?, if_pos (hid.resolve_left List.not_mem_nil)]
  | cons x before ih =>
    obtain ⟨hx, hbefore⟩ := List.forall_mem_cons.mp hbefore
    obtain ⟨hnew, hnodup⟩ := List.nodup_cons.mp hnodup
    rw [List.cons_append, repeated?, if_neg hx]
    apply ih hnodup
    · intro y hy hmem
      rcases List.mem_cons.mp hmem with rfl | hmem
      · exact hnew hy
      · exact hbefore y hy hmem
    · rw [List.mem_cons] at hid ⊢
      tauto

theorem unknownTarget?_eq_some_iff {b : Block} {error : FlowError} :
    f.unknownTarget? b = some error ↔ ∃ earlier target later,
      b.terminator.targets = earlier ++ target :: later ∧ (∀ t ∈ earlier, t ∈ f.ids) ∧
        target ∉ f.ids ∧ error = .unknownTarget f.name b.id target := by
  rw [unknownTarget?, Option.map_eq_some_iff]
  simp only [List.find?_eq_some_iff_append, decide_eq_true_eq, Bool.not_eq_true',
    decide_eq_false_iff_not, Classical.not_not]
  constructor
  · rintro ⟨target, ⟨htarget, earlier, later, htargets, hearlier⟩, rfl⟩
    exact ⟨earlier, target, later, htargets, hearlier, htarget, rfl⟩
  · rintro ⟨earlier, target, later, htargets, hearlier, htarget, rfl⟩
    exact ⟨target, ⟨htarget, earlier, later, htargets, hearlier⟩, rfl⟩

/-- The name that is found to be repeated is that of the first block whose name occurred before. -/
theorem repeated?_ids_eq_some_iff {id : String} :
    repeated? [] f.ids = some id ↔ ∃ before b after, f.blocks = before ++ b :: after ∧
      (before.map (·.id)).Nodup ∧ b.id ∈ before.map (·.id) ∧ b.id = id := by
  constructor
  · intro h
    obtain ⟨names, rest, heq, hnodup, -, hid⟩ := exists_of_repeated? h
    obtain ⟨before, behind, hblocks, rfl, hbehind⟩ := List.map_eq_append_iff.mp heq
    obtain ⟨b, after, rfl, rfl, -⟩ := List.map_eq_cons_iff.mp hbehind
    exact ⟨before, b, after, hblocks, hnodup, hid.resolve_right List.not_mem_nil, rfl⟩
  · rintro ⟨before, b, after, hblocks, hnodup, hid, rfl⟩
    rw [ids, hblocks, List.map_append, List.map_cons]
    exact repeated?_append_cons hnodup (fun _ _ => List.not_mem_nil) (Or.inl hid)

theorem repeated?_ids_eq_none_iff : repeated? [] f.ids = none ↔ f.ids.Nodup := by
  rw [repeated?_eq_none_iff]
  exact and_iff_left fun _ _ => List.not_mem_nil

/-- The fault that is found is the first one. -/
theorem fault?_eq_some_iff {error : FlowError} : f.fault? = some error ↔ f.FirstFault error := by
  rw [fault?]
  constructor
  · intro h
    split at h
    · rename_i id hid
      obtain ⟨before, b, after, hblocks, hbefore, hmem, rfl⟩ := repeated?_ids_eq_some_iff.mp hid
      obtain rfl := Option.some.inj h
      exact .duplicateBlock hblocks hbefore hmem
    · rename_i hnone
      have hids := repeated?_ids_eq_none_iff.mp hnone
      split at h
      · rename_i hentry
        obtain ⟨before, b, after, hblocks, hb, hbefore⟩ := List.findSome?_eq_some_iff.mp h
        obtain ⟨earlier, target, later, htargets, hearlier, htarget, rfl⟩ :=
          unknownTarget?_eq_some_iff.mp hb
        exact .unknownTarget hids hentry hblocks
          (fun c hc => (unknownTarget?_eq_none_iff f c).mp (hbefore c hc)) htargets hearlier htarget
      · rename_i hentry
        obtain rfl := Option.some.inj h
        exact .missingEntry hids hentry
  · intro h
    cases h with
    | duplicateBlock hblocks hbefore hid =>
      rw [repeated?_ids_eq_some_iff.mpr ⟨_, _, _, hblocks, hbefore, hid, rfl⟩]
    | missingEntry hids hentry =>
      rw [repeated?_ids_eq_none_iff.mpr hids]
      exact if_neg hentry
    | unknownTarget hids hentry hblocks hbefore htargets hearlier htarget =>
      rw [repeated?_ids_eq_none_iff.mpr hids]
      simp only [if_pos hentry]
      refine List.findSome?_eq_some_iff.mpr ⟨_, _, _, hblocks, ?_, fun c hc => ?_⟩
      · exact unknownTarget?_eq_some_iff.mpr ⟨_, _, _, htargets, hearlier, htarget, rfl⟩
      · exact (unknownTarget?_eq_none_iff f c).mpr (hbefore c hc)

end Function

/-! ## The edges of a terminator -/

namespace Terminator

/-- An edge of this kind leads from a block that ends so to the block of this name. -/
inductive Leads : Terminator → String → EdgeKind → Prop where
  /-- a jump has one edge -/
  | jump (target : String) : Leads (.goto target) target .jump
  /-- a branch has one when its condition holds -/
  | whenTrue (condition : Option Condition) (thenBlock elseBlock : String) :
      Leads (.branch condition thenBlock elseBlock) thenBlock .whenTrue
  /-- and one when it does not -/
  | whenFalse (condition : Option Condition) (thenBlock elseBlock : String) :
      Leads (.branch condition thenBlock elseBlock) elseBlock .whenFalse

theorem mem_edges_iff {t : Terminator} {id : String} {kind : EdgeKind} :
    (id, kind) ∈ t.edges ↔ t.Leads id kind := by
  constructor
  · intro h
    cases t with
    | goto target =>
      obtain ⟨rfl, rfl⟩ := Prod.mk.inj (List.mem_singleton.mp h)
      exact .jump _
    | branch condition thenBlock elseBlock =>
      rcases List.mem_cons.mp h with h | h
      · obtain ⟨rfl, rfl⟩ := Prod.mk.inj h
        exact .whenTrue ..
      · obtain ⟨rfl, rfl⟩ := Prod.mk.inj (List.mem_singleton.mp h)
        exact .whenFalse ..
    | exit => cases h
  · intro h
    cases h <;> simp [edges]

theorem mem_targets_iff {t : Terminator} {id : String} :
    id ∈ t.targets ↔ ∃ kind, t.Leads id kind := by
  rw [targets, List.mem_map]
  constructor
  · rintro ⟨⟨target, kind⟩, hedge, rfl⟩
    exact ⟨kind, mem_edges_iff.mp hedge⟩
  · rintro ⟨kind, hleads⟩
    exact ⟨(id, kind), mem_edges_iff.mpr hleads, rfl⟩

/-- A terminator with two edges is a branch, and the edge of its true branch comes first. -/
theorem pairwise_edges (t : Terminator) :
    t.edges.Pairwise fun edge edge' => edge.2 = .whenTrue ∧ edge'.2 = .whenFalse := by
  cases t <;> simp [edges]

/-- As there are two targets at most, a target that is named twice is so in a row. -/
theorem eraseReps_targets (t : Terminator) : t.targets.eraseReps = t.targets.eraseDups := by
  cases t with
  | goto target => rfl
  | branch condition thenBlock elseBlock =>
    have htargets : (branch condition thenBlock elseBlock).targets = [thenBlock, elseBlock] := rfl
    rw [htargets]
    by_cases heq : thenBlock = elseBlock
    · simp [heq, List.eraseReps, List.eraseRepsBy, List.eraseRepsBy.loop, List.eraseDups_cons]
    · have hbeq : (thenBlock == elseBlock) = false := beq_eq_false_iff_ne.mpr heq
      simp [hbeq, Ne.symm heq, List.eraseReps, List.eraseRepsBy, List.eraseRepsBy.loop,
        List.eraseDups_cons]
  | exit => rfl

end Terminator

/-! ## The edges of a flow graph -/

namespace Flow

variable {g : Flow} {b : Block} {id : String} {slot : Nat}

/-- A function that is no flow graph has a fault, and the first fault is told. -/
theorem ofFunction_eq_error_iff {f : Function} {fault : FlowError} :
    ofFunction f = .error fault ↔ f.fault? = some fault := by
  rw [ofFunction]
  constructor
  · intro h
    split at h
    · rename_i fault' hfault
      rw [hfault, Except.error.inj h]
    · cases h
  · intro h
    split
    · rename_i fault' hfault
      rw [Option.some.inj (hfault.symm.trans h)]
    · rename_i hnone
      cases hnone.symm.trans h

theorem mem_incoming {b : Block} {kind : EdgeKind} :
    (b, kind) ∈ g.incoming id ↔ b ∈ g.function.blocks ∧ (id, kind) ∈ b.terminator.edges := by
  rw [incoming, List.mem_flatMap]
  constructor
  · rintro ⟨c, hc, hmem⟩
    obtain ⟨edge, hfilter, heq⟩ := List.mem_map.mp hmem
    obtain ⟨hedge, hid⟩ := List.mem_filter.mp hfilter
    cases heq
    rw [← beq_iff_eq.mp hid]
    exact ⟨hc, hedge⟩
  · rintro ⟨hb, hedge⟩
    refine ⟨b, hb, List.mem_map.mpr ⟨(id, kind), List.mem_filter.mpr ⟨hedge, ?_⟩, rfl⟩⟩
    exact beq_self_eq_true id

theorem target_mem_of_mem_edges {b : Block} {kind : EdgeKind}
    (h : (id, kind) ∈ b.terminator.edges) : id ∈ b.terminator.targets :=
  List.mem_map_of_mem h

/-- The slot of a block is its place in the list of the function. -/
theorem slot?_eq_some_iff (hb : b ∈ g.function.blocks) :
    g.slot? b.id = some slot ↔ g.function.blocks[slot]? = some b :=
  Block.findIdx?_eq_some_iff g.wellFormed.nodup_ids hb

/-- The one edge comes before the other, where each is given by the block it leaves and its kind. -/
inductive Precedes (g : Flow) : Block × EdgeKind → Block × EdgeKind → Prop where
  /-- it leaves a block with a smaller slot -/
  | slot {b c : Block} {kind kind' : EdgeKind} {i j : Nat} (hb : g.slot? b.id = some i)
      (hc : g.slot? c.id = some j) (hlt : i < j) : Precedes g (b, kind) (c, kind')
  /-- it leaves the same block when the condition holds, and the other when it does not -/
  | branch {b : Block} : Precedes g (b, .whenTrue) (b, .whenFalse)

theorem not_precedes_self (edge : Block × EdgeKind) : ¬ g.Precedes edge edge := by
  intro h
  cases h with
  | slot hb hc hlt =>
    rw [hb] at hc
    exact Nat.ne_of_lt hlt (Option.some.inj hc)

/-- The edges into a block are listed by the slots of the blocks they leave, the edge of a true
branch first. -/
theorem pairwise_incoming (g : Flow) (id : String) : (g.incoming id).Pairwise g.Precedes := by
  refine List.pairwise_flatMap.mpr ⟨fun b _ => ?_, ?_⟩
  · refine List.pairwise_map.mpr ((b.terminator.pairwise_edges.filter _).imp ?_)
    rintro ⟨-, -⟩ ⟨-, -⟩ ⟨rfl, rfl⟩
    exact .branch
  · refine List.pairwise_iff_getElem.mpr fun i j hi hj hlt x hx y hy => ?_
    obtain ⟨edge, -, rfl⟩ := List.mem_map.mp hx
    obtain ⟨edge', -, rfl⟩ := List.mem_map.mp hy
    exact .slot ((slot?_eq_some_iff (List.getElem_mem hi)).mpr (List.getElem?_eq_getElem hi))
      ((slot?_eq_some_iff (List.getElem_mem hj)).mpr (List.getElem?_eq_getElem hj)) hlt

theorem nodup_incoming (g : Flow) (id : String) : (g.incoming id).Nodup := by
  refine List.Pairwise.imp ?_ (g.pairwise_incoming id)
  rintro edge _ hprecedes rfl
  exact not_precedes_self edge hprecedes

theorem successors_id (hb : b ∈ g.function.blocks) :
    g.successors b.id = b.terminator.targets.eraseDups := by
  rw [successors, g.wellFormed.block?_id hb]
  exact b.terminator.eraseReps_targets

/-- **Exactly the well-formed functions are flow graphs, and the graph has the edges of the
function.** Any other function is refused for its first fault. In the graph each block has its place
in the list as slot. The edges into it are those of the terminators that lead to it, each once, in the
order of the list and the true branch first. It leads to the targets of its own terminator, each named
once. So an edge into a block leaves another one exactly if the other one leads to the block. -/
theorem ofFunction_mirrors (f : Function) :
    ((∃ g, ofFunction f = .ok g) ↔ f.WellFormed) ∧
    (∀ error, ofFunction f = .error error ↔ f.FirstFault error) ∧
    ∀ g, ofFunction f = .ok g →
      (∀ b ∈ f.blocks, ∀ slot, g.slot? b.id = some slot ↔ f.blocks[slot]? = some b) ∧
      (∀ b ∈ f.blocks,
        (∀ p kind, (p, kind) ∈ g.incoming b.id ↔
          p ∈ f.blocks ∧ p.terminator.Leads b.id kind) ∧
        (g.incoming b.id).Nodup ∧ (g.incoming b.id).Pairwise g.Precedes) ∧
      (∀ b ∈ f.blocks, g.successors b.id = b.terminator.targets.eraseDups) ∧
      ∀ b ∈ f.blocks, ∀ p ∈ f.blocks,
        (∃ kind, (p, kind) ∈ g.incoming b.id) ↔ b.id ∈ g.successors p.id := by
  refine ⟨?_, fun _ => ofFunction_eq_error_iff.trans Function.fault?_eq_some_iff, ?_⟩
  · constructor
    · rintro ⟨g, hg⟩
      obtain rfl := ofFunction_eq_ok_iff.mp hg
      exact g.wellFormed
    · intro hf
      exact ⟨⟨f, hf, f.visitOrder, rfl⟩, ofFunction_eq_ok_iff.mpr rfl⟩
  · rintro g hg
    obtain rfl := ofFunction_eq_ok_iff.mp hg
    have hincoming : ∀ {id p kind}, (p, kind) ∈ g.incoming id ↔
        p ∈ g.function.blocks ∧ p.terminator.Leads id kind := by
      intro id p kind
      rw [mem_incoming, Terminator.mem_edges_iff]
    refine ⟨fun b hb _ => slot?_eq_some_iff hb,
      fun b _ => ⟨fun _ _ => hincoming, g.nodup_incoming b.id, g.pairwise_incoming b.id⟩,
      fun b hb => successors_id hb, fun b _ p hp => ?_⟩
    rw [successors_id hp, List.mem_eraseDups, Terminator.mem_targets_iff]
    simp only [hincoming, hp, true_and]

end Flow

end BufferBounds
