import BufferBounds.Proofs.FlowGraphs
import BufferBounds.Proofs.Joins
import BufferBounds.Proofs.Visits

/-!
# Stability

Where the propagation ends nothing is left to do. The invariant `Consistent` says so for every place
that is not pending: the entry store of the block there covers all that arrives. A visit keeps it,
as a new exit store makes pending every place at which more can arrive now, and as the store that a
block is run from covers what arrived, widened or not.
-/

namespace BufferBounds

/-! ## What arrives at a block -/

namespace Flow

variable {g : Flow} {settings : Settings} {entries exits : Table Store} {id : String}

/-- What arrives at a block depends only on the exit stores of the blocks that lead to it. -/
theorem incomingStore?_congr {exits' : Table Store}
    (h : ∀ b ∈ g.function.blocks, id ∈ b.terminator.targets → exits[b.id]? = exits'[b.id]?) :
    g.incomingStore? settings exits id = g.incomingStore? settings exits' id := by
  have harriving : g.arriving settings exits id = g.arriving settings exits' id := by
    rw [arriving, arriving]
    refine congrArg _ (List.filterMap_congr fun edge hedge => ?_)
    obtain ⟨b, kind⟩ := edge
    obtain ⟨hb, hmem⟩ := mem_incoming.mp hedge
    simp only [h b hb (target_mem_of_mem_edges hmem)]
  rw [incomingStore?, incomingStore?, harriving]

/-- At the entry of the function a store always arrives. -/
theorem exists_incomingStore?_entry (g : Flow) (settings : Settings) (exits : Table Store) :
    ∃ s, g.incomingStore? settings exits g.function.entry = some s := by
  rw [incomingStore?, arriving, if_pos rfl]
  exact ⟨_, rfl⟩

/-- The entry store of a block covers all that arrives there, if anything does. -/
def Covered (g : Flow) (settings : Settings) (entries exits : Table Store) (id : String) : Prop :=
  ∀ s, g.incomingStore? settings exits id = some s →
    ∃ entry, entries[id]? = some entry ∧ entry.join s = entry

end Flow

namespace Progress

variable {g : Flow} {settings : Settings} {p q : Progress g}

/-- The store that a visit runs a block from covers what arrived. -/
theorem Renewal.join_eq {b : Block} {incoming entry : Store}
    (h : Renewal settings p b incoming entry q) : entry.join incoming = entry := by
  cases h with
  | first hold => exact Store.join_self incoming
  | plain hold hne hheader => exact Store.join_join_right _ _
  | counted hold hne hheader hcap => exact Store.join_join_right _ _
  | widened hold hne hheader hcap => exact Store.widen_join_join _ _

/-! ## The invariant -/

/-- The stores fit together, but for the pending places. -/
structure Consistent (settings : Settings) (p : Progress g) : Prop where
  /-- the blocks with an entry store are those with an exit store -/
  mem_iff : ∀ id, id ∈ p.entries ↔ id ∈ p.exits
  /-- they can be reached -/
  mem_order : ∀ id ∈ p.entries, id ∈ g.orderIds
  /-- running a block from its entry store gives its exit store -/
  exit_eq : ∀ b ∈ g.order, ∀ entry, p.entries[b.id]? = some entry →
    p.exits[b.id]? = some (b.transfer settings entry)
  /-- the entry store of a block that is not pending covers all that arrives -/
  covered : ∀ place b, g.order[place]? = some b → place ∉ p.pending →
    g.Covered settings p.entries p.exits b.id

namespace Consistent

theorem start (g : Flow) (settings : Settings) : Consistent settings (start g) where
  mem_iff id := by simp [Progress.start]
  mem_order id hid := absurd hid Std.ExtTreeMap.not_mem_empty
  exit_eq b _ entry h := by simp [Progress.start] at h
  covered place b hb hplace := by
    obtain ⟨hlt, -⟩ := List.getElem?_eq_some_iff.mp hb
    exact absurd (List.mem_range.mpr hlt) hplace

theorem idle (h : Consistent settings p) {place : Nat} {pending : List Nat}
    (hpending : p.pending = place :: pending)
    (hsettled : ∀ b incoming, g.order[place]? = some b →
      g.incomingStore? settings p.exits b.id = some incoming →
      ∃ old, p.entries[b.id]? = some old ∧ old.join incoming = old) :
    Consistent settings (p.awaiting pending) where
  mem_iff := h.mem_iff
  mem_order := h.mem_order
  exit_eq := h.exit_eq
  covered place' b hb hplace' := by
    by_cases heq : place' = place
    · subst heq
      exact fun s hs => hsettled b s hb hs
    · refine h.covered place' b hb ?_
      rw [hpending, List.mem_cons, not_or]
      exact ⟨heq, hplace'⟩

/-- Running a block changes what arrives only at blocks that are pending then. -/
theorem incomingStore?_run {b c : Block} {hb : b ∈ g.order} {entry : Store}
    {hentry : entry.Within g.assigned} {place : Nat} (hc : g.order[place]? = some c)
    (hplace : place ∉ (p.run settings b hb entry hentry).pending) :
    g.incomingStore? settings (p.run settings b hb entry hentry).exits c.id =
      g.incomingStore? settings p.exits c.id := by
  refine Flow.incomingStore?_congr fun d hd htarget => ?_
  rw [getElem?_exits_run]
  split
  · rename_i hid
    -- the block that was run is the one that leads there, so its exit store is the old one
    obtain rfl := g.wellFormed.eq_of_id_eq (Flow.mem_blocks_of_mem_order hb) hd hid
    rw [mem_pending_run, not_or, not_and_or, not_not] at hplace
    rcases hplace.2 with hsame | htargets
    · exact hsame.symm
    · exact absurd (Flow.mem_targetPlaces hc htarget) htargets
  · rfl

theorem run {b : Block} {incoming entry : Store} {place : Nat} {pending : List Nat}
    (h : Consistent settings p) (hpending : p.pending = place :: pending)
    (hplace : g.order[place]? = some b)
    (hincoming : g.incomingStore? settings p.exits b.id = some incoming)
    (hrenewal : Renewal settings (p.awaiting pending) b incoming entry q) (hb : b ∈ g.order)
    (hentry : entry.Within g.assigned) :
    Consistent settings (q.run settings b hb entry hentry) where
  mem_iff id := by
    rw [mem_entries_run, mem_exits_run, hrenewal.entries_eq, hrenewal.exits_eq]
    exact or_congr_right (h.mem_iff id)
  mem_order id hid := by
    rw [mem_entries_run, hrenewal.entries_eq] at hid
    rcases hid with rfl | hid
    · exact List.mem_map_of_mem hb
    · exact h.mem_order id hid
  exit_eq c hc entry' hentry' := by
    rw [getElem?_entries_run, hrenewal.entries_eq] at hentry'
    rw [getElem?_exits_run, hrenewal.exits_eq]
    split at hentry'
    · rename_i hid
      obtain rfl := Flow.eq_of_id_eq hb hc hid
      rw [if_pos hid, Option.some.inj hentry']
    · rename_i hid
      rw [if_neg hid]
      exact h.exit_eq c hc entry' hentry'
  covered place' c hc hplace' := by
    intro s hs
    rw [incomingStore?_run hc hplace', hrenewal.exits_eq] at hs
    rw [getElem?_entries_run, hrenewal.entries_eq]
    rw [mem_pending_run, not_or, hrenewal.pending_eq] at hplace'
    by_cases heq : place' = place
    · subst heq
      obtain rfl := Option.some.inj (hplace.symm.trans hc)
      obtain rfl := Option.some.inj (hincoming.symm.trans hs)
      exact ⟨entry, if_pos rfl, hrenewal.join_eq⟩
    · have hne : b.id ≠ c.id := by
        intro hid
        exact heq (Flow.place_eq_of_id_eq hc hplace hid.symm)
      rw [if_neg hne]
      refine h.covered place' c hc ?_ s hs
      rw [hpending, List.mem_cons, not_or]
      exact ⟨heq, hplace'.1⟩

theorem step (h : Consistent settings p) (hstep : Stepped settings p q) :
    Consistent settings q := by
  cases hstep with
  | idle hpending hsettled => exact h.idle hpending hsettled
  | run hpending hplace hincoming hrenewal hmem hentry =>
    exact h.run hpending hplace hincoming hrenewal hmem hentry

theorem finish (g : Flow) (settings : Settings) :
    Consistent settings ((Progress.start g).finish settings) :=
  finish_induction (fun _ _ h hstep => h.step hstep) (start g settings)

end Consistent

end Progress

/-! ## The solution -/

namespace Flow

variable {g : Flow} {settings : Settings}

theorem mem_entries_iff {id : String} :
    id ∈ (g.propagate settings).entries ↔ id ∈ (g.propagate settings).exits :=
  (Progress.Consistent.finish g settings).mem_iff id

theorem reachable_of_mem_entries {id : String} (h : id ∈ (g.propagate settings).entries) :
    g.function.Reachable id :=
  mem_orderIds_iff.mp ((Progress.Consistent.finish g settings).mem_order id h)

theorem mem_order_of_mem_entries {b : Block} (hb : b ∈ g.function.blocks)
    (h : b.id ∈ (g.propagate settings).entries) : b ∈ g.order :=
  mem_order_iff.mpr ⟨hb, reachable_of_mem_entries h⟩

theorem mem_entries_of_eq_some {id : String} {entry : Store}
    (h : (g.propagate settings).entries[id]? = some entry) :
    id ∈ (g.propagate settings).entries :=
  Table.mem_of_eq_some h

/-- Running a block from its entry store gives its exit store. -/
theorem exits_eq_transfer {b : Block} (hb : b ∈ g.function.blocks) {entry : Store}
    (h : (g.propagate settings).entries[b.id]? = some entry) :
    (g.propagate settings).exits[b.id]? = some (b.transfer settings entry) :=
  (Progress.Consistent.finish g settings).exit_eq b
    (mem_order_of_mem_entries hb (mem_entries_of_eq_some h)) entry h

/-- Whatever arrives at a block that can be reached is covered by its entry store. -/
theorem covered_propagate {id : String} (h : g.function.Reachable id) :
    g.Covered settings (g.propagate settings).entries (g.propagate settings).exits id := by
  obtain ⟨b, hb, rfl⟩ := List.mem_map.mp (mem_orderIds_iff.mpr h)
  obtain ⟨place, hplace⟩ := List.mem_iff_getElem?.mp hb
  refine (Progress.Consistent.finish g settings).covered place b hplace ?_
  rw [Progress.pending_finish]
  exact List.not_mem_nil

theorem entry_mem_entries (g : Flow) (settings : Settings) :
    g.function.entry ∈ (g.propagate settings).entries := by
  obtain ⟨s, hs⟩ :=
    g.exists_incomingStore?_entry settings (g.propagate settings).exits
  obtain ⟨entry, hentry, -⟩ := covered_propagate Relation.ReflTransGen.refl s hs
  exact mem_entries_of_eq_some hentry

theorem isStable_propagate (g : Flow) (settings : Settings) :
    g.isStable settings (g.propagate settings) = true := by
  rw [isStable, List.all_eq_true]
  intro b hb
  rw [isStableAt]
  split
  · rfl
  · rename_i entry hentry
    rw [Bool.and_eq_true, decide_eq_true_eq]
    refine ⟨?_, exits_eq_transfer (mem_blocks_of_mem_order hb) hentry⟩
    split
    · rfl
    · rename_i incoming hincoming
      have hreach := (mem_order_iff.mp hb).2
      obtain ⟨entry', hentry', hjoin⟩ := covered_propagate hreach incoming hincoming
      obtain rfl := Option.some.inj (hentry.symm.trans hentry')
      exact decide_eq_true hjoin

/-- **Propagation ends in a closed fixed point**: one more step would change nothing. The blocks
with stores can be reached and the entry is among them; each is run from its entry store to its
exit store; and a block at which anything arrives has an entry store that covers it. -/
theorem propagate_closed (g : Flow) (settings : Settings) :
    let r := g.propagate settings
    g.isStable settings r = true ∧
      (∀ id, id ∈ r.entries ↔ id ∈ r.exits) ∧
      (∀ id ∈ r.entries, g.function.Reachable id) ∧
      g.function.entry ∈ r.entries ∧
      (∀ b ∈ g.function.blocks, ∀ entry, r.entries[b.id]? = some entry →
        r.exits[b.id]? = some (b.transfer settings entry)) ∧
      ∀ id s, g.function.Reachable id → g.incomingStore? settings r.exits id = some s →
        ∃ entry, r.entries[id]? = some entry ∧ entry.join s = entry :=
  ⟨g.isStable_propagate settings, fun _ => mem_entries_iff, fun _ => reachable_of_mem_entries,
    g.entry_mem_entries settings, fun _ hb _ => exits_eq_transfer hb,
    fun _ s hreach => covered_propagate hreach s⟩

end Flow

end BufferBounds
