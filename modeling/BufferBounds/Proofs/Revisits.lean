import BufferBounds.Proofs.Stability

/-!
# Revisiting blocks

What `Flow.isStable` tells of a solution that is merely given: its tables need not come from a
propagation, and may hold any stores for any names. A revisit takes one more step at a block. It
joins what arrives to the entry store, or starts with what arrives where there is none, and runs the
block from there.

A solution is stable exactly if no revisit of blocks with an entry store changes it. Blocks without
one are not looked at. So a stable solution can lack the entry store of a block at which a store
arrives, and then a revisit of that block adds one, from where it may spread to others.
-/

namespace BufferBounds

theorem Table.insert_eq_self_iff {β : Type} {t : Table β} {k : String} {x : β} :
    t.insert k x = t ↔ t[k]? = some x := by
  constructor
  · intro h
    rw [← h, Std.ExtTreeMap.getElem?_insert_self]
  · intro h
    refine Std.ExtTreeMap.ext_getElem? fun k' => ?_
    rw [Std.ExtTreeMap.getElem?_insert]
    split
    · rename_i heq
      rw [← Std.LawfulEqCmp.eq_of_compare heq, h]
    · rfl

namespace Flow

variable {g : Flow} {settings : Settings} {r : Solution} {b : Block} {entry : Store}

/-! ## Revisits -/

/-- The entry store after one more step at a block: the one it had, joined with what arrives. -/
def renewedEntry? (g : Flow) (settings : Settings) (r : Solution) (b : Block) : Option Store :=
  Table.joinEntry Store.join r.entries[b.id]? (g.incomingStore? settings r.exits b.id)

/-- The solution after one more step at a block. -/
def revisit (g : Flow) (settings : Settings) (r : Solution) (b : Block) : Solution :=
  match g.renewedEntry? settings r b with
  | some entry =>
    { r with
      entries := r.entries.insert b.id entry
      exits := r.exits.insert b.id (b.transfer settings entry) }
  | none => r

/-- A revisit leaves the solution as it is if nothing arrives where there is no entry store, or if
the entry store is the renewed one and the exit store what the block makes of it. -/
theorem revisit_eq_self_iff :
    g.revisit settings r b = r ↔
      ∀ entry, g.renewedEntry? settings r b = some entry →
        r.entries[b.id]? = some entry ∧ r.exits[b.id]? = some (b.transfer settings entry) := by
  rw [revisit]
  split
  · rename_i entry hentry
    constructor
    · intro h entry' hentry'
      obtain rfl := Option.some.inj (hentry.symm.trans hentry')
      exact ⟨Table.insert_eq_self_iff.mp (congrArg Solution.entries h),
        Table.insert_eq_self_iff.mp (congrArg Solution.exits h)⟩
    · intro h
      obtain ⟨hentries, hexits⟩ := h entry hentry
      rw [Table.insert_eq_self_iff.mpr hentries, Table.insert_eq_self_iff.mpr hexits]
  · rename_i hnone
    exact iff_of_true rfl fun entry hentry => nomatch hnone.symm.trans hentry

/-! ## What stability says of a block -/

theorem isStableAt_of_eq_none (h : r.entries[b.id]? = none) :
    g.isStableAt settings r b = true := by
  rw [isStableAt, h]

/-- Of a block with an entry store stability says that the store covers what arrives, and leads to
the exit store. -/
theorem isStableAt_iff (h : r.entries[b.id]? = some entry) :
    g.isStableAt settings r b = true ↔
      (∀ s, g.incomingStore? settings r.exits b.id = some s → entry.join s = entry) ∧
        r.exits[b.id]? = some (b.transfer settings entry) := by
  simp only [isStableAt, h, Bool.and_eq_true, decide_eq_true_eq]
  refine and_congr_left fun _ => ?_
  cases g.incomingStore? settings r.exits b.id <;> simp

/-- A block with an entry store is stable exactly if a revisit changes nothing. -/
theorem isStableAt_iff_revisit (h : r.entries[b.id]? = some entry) :
    g.isStableAt settings r b = true ↔ g.revisit settings r b = r := by
  rw [isStableAt_iff h, revisit_eq_self_iff, renewedEntry?, h]
  cases g.incomingStore? settings r.exits b.id with
  | none => simp [Table.joinEntry]
  | some s =>
    simp only [Table.joinEntry, Option.some.injEq, forall_eq']
    constructor
    · rintro ⟨hjoin, hexit⟩
      rw [hjoin]
      exact ⟨rfl, hexit⟩
    · rintro ⟨hjoin, hexit⟩
      rw [← hjoin] at hexit
      exact ⟨hjoin.symm, hexit⟩

/-- A block without an entry store is left as it is exactly if nothing arrives there. -/
theorem revisit_eq_self_iff_of_eq_none (h : r.entries[b.id]? = none) :
    g.revisit settings r b = r ↔ g.incomingStore? settings r.exits b.id = none := by
  rw [revisit_eq_self_iff, renewedEntry?, h, Option.eq_none_iff_forall_not_mem]
  refine forall_congr' fun entry => ⟨fun hstep harrives => ?_, fun hnone harrives => ?_⟩
  · cases (hstep harrives).1
  · exact absurd harrives hnone

/-! ## What stability says of a solution -/

/-- No entry store is missing: every reachable block at which a store arrives has one. -/
def Complete (g : Flow) (settings : Settings) (r : Solution) : Prop :=
  ∀ b ∈ g.function.blocks, g.function.Reachable b.id →
    (g.incomingStore? settings r.exits b.id).isSome → b.id ∈ r.entries

theorem isStable_iff :
    g.isStable settings r = true ↔
      ∀ b ∈ g.function.blocks, g.function.Reachable b.id → g.isStableAt settings r b = true := by
  simp only [isStable, List.all_eq_true, mem_order_iff, and_imp]

theorem isStable_iff_revisit :
    g.isStable settings r = true ↔
      ∀ b ∈ g.function.blocks, g.function.Reachable b.id → b.id ∈ r.entries →
        g.revisit settings r b = r := by
  rw [isStable_iff]
  refine forall_congr' fun b => forall_congr' fun _ => forall_congr' fun _ => ?_
  cases hentry : r.entries[b.id]? with
  | some entry =>
    rw [isStableAt_iff_revisit hentry]
    exact ⟨fun h _ => h, fun h => h (Table.mem_of_eq_some hentry)⟩
  | none =>
    refine iff_of_true (isStableAt_of_eq_none hentry) fun hmem => ?_
    obtain ⟨entry, hentry'⟩ := Table.mem_iff_exists.mp hmem
    cases hentry.symm.trans hentry'

/-- Where no revisit changes anything, the solution is stable and no entry store is missing. -/
theorem forall_revisit_iff :
    (∀ b ∈ g.function.blocks, g.function.Reachable b.id → g.revisit settings r b = r) ↔
      g.isStable settings r = true ∧ g.Complete settings r := by
  rw [isStable_iff_revisit]
  constructor
  · intro h
    refine ⟨fun b hb hreach _ => h b hb hreach, fun b hb hreach harrives => ?_⟩
    by_contra hmissing
    have hnone : r.entries[b.id]? = none := Std.ExtTreeMap.getElem?_eq_none hmissing
    rw [(revisit_eq_self_iff_of_eq_none hnone).mp (h b hb hreach)] at harrives
    cases harrives
  · rintro ⟨h, hcomplete⟩ b hb hreach
    by_cases hmem : b.id ∈ r.entries
    · exact h b hb hreach hmem
    · refine (revisit_eq_self_iff_of_eq_none (Std.ExtTreeMap.getElem?_eq_none hmem)).mpr ?_
      exact Option.not_isSome_iff_eq_none.mp fun harrives => hmem (hcomplete b hb hreach harrives)

/-- If no revisit changes anything, nor do many. -/
theorem foldl_revisit_eq_self {bs : List Block} (h : ∀ b ∈ bs, g.revisit settings r b = r) :
    bs.foldl (g.revisit settings) r = r := by
  induction bs with
  | nil => rfl
  | cons b bs ih =>
    rw [List.foldl_cons, h b (List.mem_cons_self ..)]
    exact ih fun b hb => h b (List.mem_cons_of_mem _ hb)

/-- **What stability accepts.** Of any solution whatsoever, stability says exactly that no further
steps at reachable blocks with an entry store change it: the entry store covers what arrives, and
the exit store is what the block makes of it. That no further steps at all change it is more, by
just this: no reachable block at which a store arrives lacks an entry store. -/
theorem stable_iff_unchanged (g : Flow) (settings : Settings) (r : Solution) :
    (g.isStable settings r = true ↔
      ∀ bs : List Block,
        (∀ b ∈ bs, b ∈ g.function.blocks ∧ g.function.Reachable b.id ∧ b.id ∈ r.entries) →
          bs.foldl (g.revisit settings) r = r) ∧
    (g.isStable settings r = true →
      ∀ b ∈ g.function.blocks, g.function.Reachable b.id →
        ∀ entry, r.entries[b.id]? = some entry →
          (∀ s, g.incomingStore? settings r.exits b.id = some s → entry.join s = entry) ∧
            r.exits[b.id]? = some (b.transfer settings entry)) ∧
    ((∀ bs : List Block, (∀ b ∈ bs, b ∈ g.function.blocks ∧ g.function.Reachable b.id) →
        bs.foldl (g.revisit settings) r = r) ↔
      g.isStable settings r = true ∧ g.Complete settings r) := by
  refine ⟨?_, ?_, ?_⟩
  · rw [isStable_iff_revisit]
    constructor
    · intro h bs hbs
      refine foldl_revisit_eq_self fun b hb => ?_
      obtain ⟨hmem, hreach, hentered⟩ := hbs b hb
      exact h b hmem hreach hentered
    · intro h b hb hreach hentered
      exact h [b] (List.forall_mem_singleton.mpr ⟨hb, hreach, hentered⟩)
  · intro h b hb hreach entry hentry
    exact (isStableAt_iff hentry).mp (isStable_iff.mp h b hb hreach)
  · rw [← forall_revisit_iff]
    constructor
    · intro h b hb hreach
      exact h [b] (List.forall_mem_singleton.mpr ⟨hb, hreach⟩)
    · intro h bs hbs
      refine foldl_revisit_eq_self fun b hb => ?_
      exact h b (hbs b hb).1 (hbs b hb).2

/-! ## A stable solution that is not closed -/

/-- A block that sets `x` to five, and the block behind it. -/
def twoBlocks : Flow where
  function :=
    { name := "two"
      entry := "first"
      blocks :=
        [ ⟨"first", [.assign "x" (.const 5) ⟨1, 4, 1, 4⟩], .goto "second"⟩,
          ⟨"second", [], .exit⟩ ] }
  wellFormed := (Function.fault?_eq_none_iff _).mp (by decide)
  order := _
  order_eq := rfl

/-- A solution that has stores for the second block only, as if nothing came from the first. -/
def headless : Solution where
  entries := (∅ : Table Store).insert "second" ∅
  exits := (∅ : Table Store).insert "second" ∅
  transfers := 2
  widened := []
  allocations := []
  accesses := []

/-- Without stores for its entry the solution is stable. A store arrives there all the same, and two
further steps would change the stores of the second block as well. -/
theorem not_closed_headless :
    twoBlocks.isStable default headless = true ∧
      (twoBlocks.function.blocks.foldl (twoBlocks.revisit default) headless).entries["second"]? ≠
        headless.entries["second"]? ∧
      ¬ ∀ b ∈ twoBlocks.function.blocks, twoBlocks.function.Reachable b.id →
        ∀ s, twoBlocks.incomingStore? default headless.exits b.id = some s →
          ∃ entry, headless.entries[b.id]? = some entry ∧ entry.join s = entry ∧
            headless.exits[b.id]? = some (b.transfer default entry) := by
  refine ⟨by decide +kernel, by decide +kernel, fun h => ?_⟩
  obtain ⟨s, hs⟩ := twoBlocks.exists_incomingStore?_entry default headless.exits
  obtain ⟨entry, hentry, -⟩ := h _ (List.mem_cons_self ..) Relation.ReflTransGen.refl s hs
  have hnone : headless.entries["first"]? = none := by decide +kernel
  cases hnone.symm.trans hentry

end Flow

end BufferBounds
