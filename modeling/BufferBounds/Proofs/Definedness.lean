import BufferBounds.Proofs.LoopHeaders
import BufferBounds.Proofs.Undetermined
import Mathlib.Data.List.Chain

/-!
# Which variables have a value

If conditions restrict nothing, the solution tells of every block whether it can be reached, and of
every variable whether some path to the block assigns it. A value comes only from an assignment on
the way (`Progress.Traced` says so of all stores found so far). In the other direction no value is
lost: statements, joins and widening keep all variables, and the entry store of a block covers
whatever arrives there.
-/

namespace BufferBounds

/-! ## Paths past assignments -/

namespace Function

variable {f : Function} {source id var : String} {passed : List String}

/-- A path of edges leads from the entry to the block and passes these blocks before. -/
structure Passes (f : Function) (passed : List String) (id : String) : Prop where
  /-- the path starts at the entry -/
  head?_eq : (passed ++ [id]).head? = some f.entry
  /-- an edge leads from each block to the next one -/
  isChain : List.IsChain f.Edge (passed ++ [id])

/-- Some path from the entry assigns the variable in a block that it passes before it arrives at this
one. That block may be this one too, at an earlier visit. -/
def AssignedBefore (f : Function) (var id : String) : Prop :=
  ∃ passed, f.Passes passed id ∧ ∃ source ∈ passed, ∃ b, f.block? source = some b ∧ var ∈ b.targets

/-- What a path from the entry passes can be reached, and the path leads on from there. -/
theorem Passes.reaches (h : f.Passes passed id) (hsource : source ∈ passed) :
    f.Reachable source ∧ Relation.TransGen f.Edge source id := by
  obtain ⟨before, after, rfl⟩ := List.append_of_mem hsource
  have hchain := h.isChain
  rw [List.append_assoc, List.cons_append, List.isChain_split] at hchain
  refine ⟨?_, transGen_of_isChain hchain.2⟩
  cases before with
  | nil =>
    obtain rfl : source = f.entry := Option.some.inj h.head?_eq
    exact .refl
  | cons first before =>
    obtain rfl : first = f.entry := Option.some.inj h.head?_eq
    exact (transGen_of_isChain hchain.1).to_reflTransGen

/-- Past a block that can be reached a path leads wherever edges lead from there. -/
theorem exists_passes (hreach : f.Reachable source) (h : Relation.TransGen f.Edge source id) :
    ∃ passed, f.Passes passed id ∧ source ∈ passed := by
  obtain ⟨after, hafter⟩ := exists_isChain_of_transGen h
  rcases Relation.reflTransGen_iff_eq_or_transGen.mp hreach with rfl | hbefore
  · exact ⟨f.entry :: after, ⟨rfl, hafter⟩, List.mem_cons_self ..⟩
  · obtain ⟨before, hbefore⟩ := exists_isChain_of_transGen hbefore
    refine ⟨f.entry :: before ++ source :: after, ⟨rfl, ?_⟩, by simp⟩
    have hchain : List.IsChain f.Edge (f.entry :: before ++ source :: (after ++ [id])) :=
      List.isChain_split.mpr ⟨hbefore, hafter⟩
    rwa [List.append_assoc]

/-- The path itself does not matter, only that one leads to the assignment and one on from there. -/
theorem assignedBefore_iff : f.AssignedBefore var id ↔
    ∃ source b, f.block? source = some b ∧ var ∈ b.targets ∧ f.Reachable source ∧
      Relation.TransGen f.Edge source id := by
  constructor
  · rintro ⟨passed, hpasses, source, hsource, b, hb, hvar⟩
    exact ⟨source, b, hb, hvar, hpasses.reaches hsource⟩
  · rintro ⟨source, b, hb, hvar, hreach, hpath⟩
    obtain ⟨passed, hpasses, hsource⟩ := exists_passes hreach hpath
    exact ⟨passed, hpasses, source, hsource, b, hb, hvar⟩

end Function

/-- A path through statements stays in a block and ascends there, or takes some edges. -/
theorem Flow.Path.transGen {g : Flow} {allowed : Statement → Prop} {x y : Point}
    (hpath : g.Path allowed x y) (hx : x.block ∈ g.function.blocks) :
    y.block ∈ g.function.blocks ∧
      (x.block = y.block ∧ x.place ≤ y.place ∨
        Relation.TransGen g.function.Edge x.block.id y.block.id) := by
  induction hpath with
  | refl => exact ⟨hx, Or.inl ⟨rfl, Nat.le_refl _⟩⟩
  | tail _ hmove ih =>
    obtain ⟨hb, ih⟩ := ih
    cases hmove with
    | statement hplace hallowed =>
      exact ⟨hb, ih.imp_left fun ⟨hblock, hle⟩ => ⟨hblock, Nat.le_succ_of_le hle⟩⟩
    | @edge b c hc ht =>
      have hedge : g.function.Edge b.id c.id := ⟨b, g.wellFormed.block?_id hb, ht⟩
      refine ⟨hc, Or.inr ?_⟩
      rcases ih with ⟨rfl, -⟩ | ih
      · exact .single hedge
      · exact ih.tail hedge

/-- An assignment that reaches the start of a block was passed on a path there. -/
theorem Flow.Assigns.assignedBefore {g : Flow} {var : String} {b c : Block} {place : Nat}
    (h : g.Assigns var ⟨b, 0⟩ c place) : g.function.AssignedBefore var b.id := by
  have hc : c ∈ g.order := h.from_entry.mem_order
  obtain ⟨hblock, hreach⟩ := mem_order_iff.mp hc
  obtain ⟨statement, hstatement, htarget⟩ := h.target
  have hvar : var ∈ c.targets :=
    List.mem_filterMap.mpr ⟨statement, List.mem_of_getElem? hstatement, htarget⟩
  obtain ⟨-, ⟨-, hle⟩ | hpath⟩ := Path.transGen h.path hblock
  · exact absurd hle (Nat.not_succ_le_zero place)
  · exact Function.assignedBefore_iff.mpr
      ⟨c.id, c, g.wellFormed.block?_id hblock, hvar, hreach, hpath⟩

/-! ## Variables along a path -/

/-- A statement gives a value to its target and takes none away. -/
theorem Statement.mem_after_iff {settings : Settings} {site : Site} {s : Store}
    {statement : Statement} {var : String} :
    var ∈ statement.after settings site s ↔ var ∈ s ∨ statement.target? = some var := by
  by_cases htarget : statement.target? = some var
  · exact iff_of_true (mem_after htarget) (Or.inr htarget)
  · rw [Store.mem_iff_isSome_get?, get?_after_of_spares htarget, ← Store.mem_iff_isSome_get?]
    exact (or_iff_left htarget).symm

/-- A block gives values to its targets and takes none away. -/
theorem Block.mem_transfer_iff {settings : Settings} {b : Block} {s : Store} {var : String} :
    var ∈ b.transfer settings s ↔ var ∈ s ∨ var ∈ b.targets := by
  have htargets : b.targets = b.located.filterMap fun p => p.2.target? := by
    rw [targets, located, List.filterMap_map]
    conv_lhs => rw [← List.zipIdx_map_fst 0 b.statements, List.filterMap_map]
    rfl
  rw [htargets, transfer]
  generalize b.located = l
  induction l generalizing s with
  | nil => simp
  | cons p l ih =>
    refine ih.trans ?_
    rw [Statement.mem_after_iff, or_assoc]
    simp [List.mem_filterMap]

theorem Store.mem_foldl_join {ss : List Store} {s : Store} {var : String} :
    var ∈ ss.foldl join s ↔ var ∈ s ∨ ∃ t ∈ ss, var ∈ t := by
  induction ss generalizing s with
  | nil => simp
  | cons t ss ih =>
    rw [List.foldl_cons, ih, mem_join, or_assoc]
    simp

/-- A variable of one of the stores is one of their join. -/
theorem Store.mem_joinAll? {ss : List Store} {s t : Store} {var : String} (hs : s ∈ ss)
    (ht : joinAll? ss = some t) (hvar : var ∈ s) : var ∈ t := by
  cases ss with
  | nil => cases hs
  | cons u ss =>
    obtain rfl := Option.some.inj ht
    rw [mem_foldl_join]
    rcases List.mem_cons.mp hs with rfl | hs
    · exact Or.inl hvar
    · exact Or.inr ⟨s, hs, hvar⟩

namespace Flow

variable {g : Flow} {settings : Settings} {var : String}

/-- An edge carries every variable on, if conditions restrict nothing. -/
theorem mem_entry_of_edge (hnarrow : settings.branchNarrowing = false) {b : Block}
    (hb : b ∈ g.function.blocks) {target : String} (ht : target ∈ b.terminator.targets)
    {exit entry : Store} (hexit : (g.propagate settings).exits[b.id]? = some exit)
    (hentry : (g.propagate settings).entries[target]? = some entry) (hvar : var ∈ exit) :
    var ∈ entry := by
  obtain ⟨incoming, entry', hincoming, hmem, hentry', hjoin⟩ :=
    exists_entry_of_mem_targets hnarrow hb ht hexit
  obtain rfl := Option.some.inj (hentry.symm.trans hentry')
  rw [← hjoin]
  exact Store.mem_join.mpr (Or.inr (Store.mem_joinAll? hmem hincoming hvar))

/-- Along a path no variable is lost, if conditions restrict nothing. -/
theorem mem_entry_of_transGen (hnarrow : settings.branchNarrowing = false) {source target : String}
    (hpath : Relation.TransGen g.function.Edge source target) {exit entry : Store}
    (hexit : (g.propagate settings).exits[source]? = some exit)
    (hentry : (g.propagate settings).entries[target]? = some entry) (hvar : var ∈ exit) :
    var ∈ entry := by
  induction hpath using Relation.TransGen.head_induction_on generalizing exit with
  | single hedge =>
    obtain ⟨b, hb, ht⟩ := hedge
    obtain ⟨hblock, rfl⟩ := Function.mem_blocks_of_block? hb
    exact mem_entry_of_edge hnarrow hblock ht hexit hentry hvar
  | @head source next hedge _ ih =>
    obtain ⟨b, hb, ht⟩ := hedge
    obtain ⟨hblock, rfl⟩ := Function.mem_blocks_of_block? hb
    obtain ⟨-, entry', -, -, hentry', -⟩ := exists_entry_of_mem_targets hnarrow hblock ht hexit
    have hmem := mem_entry_of_edge hnarrow hblock ht hexit hentry' hvar
    obtain ⟨c, hc, rfl⟩ := List.mem_map.mp (mem_orderIds_iff.mpr (reachable_of_mem_entries
      (mem_entries_of_eq_some hentry')))
    have hexit' := exits_eq_transfer (mem_blocks_of_mem_order hc) hentry'
    exact ih hexit' (Block.mem_transfer_iff.mpr (Or.inl hmem))

/-- **Reached means reachable, and defined means assigned on some path**, if conditions restrict
nothing. Then the blocks with an entry store are those that can be reached. A variable has a value at
the start of such a block exactly if some path from the entry assigns it in a block that it passes
before, and at the end exactly if it has one at the start or some statement of the block assigns it.
How soon stores are widened does not matter. -/
theorem defined_iff_assigned {g : Flow} {settings : Settings}
    (hnarrow : settings.branchNarrowing = false) :
    (∀ id, id ∈ (g.propagate settings).entries ↔ g.function.Reachable id) ∧
      ∀ b ∈ g.function.blocks, g.function.Reachable b.id →
        ∃ entry exit, (g.propagate settings).entries[b.id]? = some entry ∧
          (g.propagate settings).exits[b.id]? = some exit ∧
          ∀ var, (var ∈ entry ↔ g.function.AssignedBefore var b.id) ∧
            (var ∈ exit ↔
              var ∈ entry ∨ ∃ statement ∈ b.statements, statement.target? = some var) := by
  have hreached : ∀ b ∈ g.order, ∃ entry, (g.propagate settings).entries[b.id]? = some entry :=
    fun _ hb => exists_entry_of_mem_order hnarrow hb
  constructor
  · intro id
    refine ⟨reachable_of_mem_entries, fun hreach => ?_⟩
    obtain ⟨b, hb, rfl⟩ := List.mem_map.mp (mem_orderIds_iff.mpr hreach)
    exact Table.mem_iff_exists.mpr (hreached b hb)
  · intro b hb hreach
    obtain ⟨entry, hentry⟩ := hreached b (mem_order_iff.mpr ⟨hb, hreach⟩)
    refine ⟨entry, _, hentry, exits_eq_transfer hb hentry, fun var => ⟨⟨?_, ?_⟩, ?_⟩⟩
    · intro hvar
      have hzero : var ∈ b.storeAt settings entry 0 := hvar
      obtain ⟨c, place, hassigns⟩ := exists_assigns hb hentry (Nat.zero_le _) hzero
      exact hassigns.assignedBefore
    · intro hassigned
      obtain ⟨source, c, hc, htarget, hsource, hpath⟩ := Function.assignedBefore_iff.mp hassigned
      obtain ⟨hblock, rfl⟩ := Function.mem_blocks_of_block? hc
      obtain ⟨entry', hentry'⟩ := hreached c (mem_order_iff.mpr ⟨hblock, hsource⟩)
      exact mem_entry_of_transGen hnarrow hpath (exits_eq_transfer hblock hentry') hentry
        (Block.mem_transfer_iff.mpr (Or.inr htarget))
    · rw [Block.mem_transfer_iff, Block.targets, List.mem_filterMap]

/-- A function whose first block lies on a loop, with a block beside it that cannot be reached. -/
def roundabout : Flow where
  function :=
    { name := "roundabout"
      entry := "start"
      blocks :=
        [ ⟨"start", [], .branch (some ⟨"x", .lt, .const 0⟩) "round" "leave"⟩,
          ⟨"round", [.assign "x" (.const 1) ⟨2, 3, 2, 8⟩], .goto "start"⟩,
          ⟨"leave", [], .exit⟩,
          ⟨"aside", [.assign "y" (.const 2) ⟨5, 3, 5, 8⟩], .goto "leave"⟩ ] }
  wellFormed := (Function.fault?_eq_none_iff _).mp (by decide)
  order := _
  order_eq := rfl

/-- At the start of the function `x` has a value, as the way around the loop leads back there. -/
theorem defined_iff_assigned_roundabout :
    "aside" ∉ (roundabout.propagate plainSettings).entries ∧
      ∃ entry, (roundabout.propagate plainSettings).entries["start"]? = some entry ∧
        "x" ∈ entry ∧ "y" ∉ entry := by
  have hnarrow : plainSettings.branchNarrowing = false := rfl
  have hunreached : "aside" ∉ (roundabout.propagate plainSettings).entries := by decide +kernel
  obtain ⟨hreached, hdefined⟩ := defined_iff_assigned (g := roundabout) hnarrow
  have hreach : roundabout.function.Reachable "start" := .refl
  obtain ⟨entry, exit, hentry, -, hvars⟩ := hdefined _ (List.mem_cons_self ..) hreach
  refine ⟨hunreached, entry, hentry, (hvars "x").1.mpr ?_, ?_⟩
  · have hround : roundabout.function.Edge "start" "round" := ⟨_, rfl, by decide⟩
    have hback : roundabout.function.Edge "round" "start" := ⟨_, rfl, by decide⟩
    refine ⟨["start", "round"], ⟨rfl, ?_⟩, "round", by decide, _, rfl, by decide⟩
    exact .cons_cons hround (.cons_cons hback (.singleton _))
  · intro hy
    obtain ⟨source, b, hb, htarget, hsource, -⟩ :=
      Function.assignedBefore_iff.mp ((hvars "y").1.mp hy)
    -- the only block that assigns it is not reached
    obtain ⟨hmem, rfl⟩ := Function.mem_blocks_of_block? hb
    have haside : b.id = "aside" := by
      have hall : ∀ b ∈ roundabout.function.blocks, "y" ∈ b.targets → b.id = "aside" := by decide
      exact hall b hmem htarget
    rw [haside] at hsource
    exact hunreached ((hreached _).mpr hsource)

end Flow

end BufferBounds
