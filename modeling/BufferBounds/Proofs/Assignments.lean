import BufferBounds.Proofs.Paths

/-!
# Where values come from

Where the solution has a value for a variable, an assignment to the variable reaches that place. The
invariant `Traced` says so of all stores that the propagation has found so far.
-/

namespace BufferBounds

/-! ## Variables in stores -/

namespace Store

variable {s t : Store} {var : String}

theorem mem_join : var ∈ s.join t ↔ var ∈ s ∨ var ∈ t := by
  rw [mem_iff_isSome_get?, mem_iff_isSome_get?, mem_iff_isSome_get?, get?_join]
  cases s.get? var <;> cases t.get? var <;> simp [Table.joinEntry]

theorem mem_widen {vars : List String} : var ∈ s.widen vars ↔ var ∈ s := by
  rw [mem_iff_isSome_get?, mem_iff_isSome_get?, get?_widen]
  split
  · rw [Option.isSome_map]
  · rfl

theorem exists_mem_of_mem_joinAll? {ss : List Store} (h : joinAll? ss = some t) (hvar : var ∈ t) :
    ∃ s ∈ ss, var ∈ s := by
  cases ss with
  | nil => cases h
  | cons s ss =>
    obtain rfl := Option.some.inj h
    clear h
    induction ss generalizing s with
    | nil => exact ⟨s, List.mem_singleton_self s, hvar⟩
    | cons u ss ih =>
      obtain ⟨v, hv, hmem⟩ := ih _ hvar
      rcases List.mem_cons.mp hv with rfl | hv
      · rcases mem_join.mp hmem with hs | hu
        · exact ⟨s, by simp, hs⟩
        · exact ⟨u, by simp, hu⟩
      · exact ⟨v, by simp [hv], hmem⟩

end Store

/-- An edge binds no variable that was not bound. -/
theorem Block.mem_of_along? {settings : Settings} {b : Block} {kind : EdgeKind} {s t : Store}
    {var : String} (h : b.along? settings kind s = some t) (hvar : var ∈ t) : var ∈ s := by
  have hwithin : s.Within s.vars := fun _ hmem => Std.ExtTreeMap.mem_keys.mpr hmem
  exact Std.ExtTreeMap.mem_keys.mp (within_along? hwithin h var hvar)

/-! ## Through a block -/

/-- If every variable at the start of a block was assigned on the way, so was every variable at any
place of it. -/
theorem Flow.assigns_storeAt {g : Flow} {settings : Settings} {b : Block} (hb : b ∈ g.order)
    {entry : Store} (h : ∀ var ∈ entry, ∃ c i, g.Assigns var ⟨b, 0⟩ c i) {place : Nat}
    (hplace : place ≤ b.statements.length) :
    ∀ var ∈ b.storeAt settings entry place, ∃ c i, g.Assigns var ⟨b, place⟩ c i := by
  induction place with
  | zero => exact h
  | succ place ih =>
    intro var hvar
    have hlt : place < b.statements.length := hplace
    have hstatement := List.getElem?_eq_getElem hlt
    rw [Block.storeAt_succ hstatement] at hvar
    by_cases htarget : b.statements[place].target? = some var
    · -- the assignment that was just made is the one
      have hfrom := (fromEntry_of_mem_order hb).place (Nat.le_of_lt hlt)
      exact ⟨b, place, hfrom, ⟨_, hstatement, htarget⟩, Relation.ReflTransGen.refl⟩
    · rw [Store.mem_iff_isSome_get?, Statement.get?_after_of_spares htarget,
        ← Store.mem_iff_isSome_get?] at hvar
      obtain ⟨c, i, hassigns⟩ := ih (Nat.le_of_lt hlt) var hvar
      exact ⟨c, i, hassigns.tail (.statement hstatement htarget)⟩

/-! ## Through the propagation -/

namespace Progress

variable {g : Flow} {settings : Settings} {p q : Progress g}

/-- Every variable in a store was assigned on some path that leads there. -/
structure Traced (p : Progress g) : Prop where
  /-- in the stores at the start of a block -/
  entry : ∀ b ∈ g.function.blocks, ∀ s, p.entries[b.id]? = some s →
    ∀ var ∈ s, ∃ c i, g.Assigns var ⟨b, 0⟩ c i
  /-- in the stores at the end of a block -/
  exit : ∀ b ∈ g.function.blocks, ∀ s, p.exits[b.id]? = some s →
    ∀ var ∈ s, ∃ c i, g.Assigns var ⟨b, b.statements.length⟩ c i

/-- The store that a block is run from holds what arrives and what was there. -/
theorem Renewal.mem_entry {b : Block} {incoming entry : Store} {var : String}
    (h : Renewal settings p b incoming entry q) (hvar : var ∈ entry) :
    var ∈ incoming ∨ ∃ old, p.entries[b.id]? = some old ∧ var ∈ old := by
  cases h with
  | first hold => exact Or.inl hvar
  | plain hold hne hheader =>
    exact (Store.mem_join.mp hvar).symm.imp_right fun hvar => ⟨_, hold, hvar⟩
  | counted hold hne hheader hcap =>
    exact (Store.mem_join.mp hvar).symm.imp_right fun hvar => ⟨_, hold, hvar⟩
  | widened hold hne hheader hcap =>
    exact (Store.mem_join.mp (Store.mem_widen.mp hvar)).symm.imp_right fun hvar => ⟨_, hold, hvar⟩

namespace Traced

theorem start (g : Flow) : (Progress.start g).Traced where
  entry b _ s h := by simp [Progress.start] at h
  exit b _ s h := by simp [Progress.start] at h

/-- What arrives at a block comes from the end of a block with an edge to it. -/
theorem incoming (h : p.Traced) {b : Block} (hb : b ∈ g.function.blocks) {s : Store}
    (hs : g.incomingStore? settings p.exits b.id = some s) :
    ∀ var ∈ s, ∃ c i, g.Assigns var ⟨b, 0⟩ c i := by
  intro var hvar
  obtain ⟨t, ht, hvar⟩ := Store.exists_mem_of_mem_joinAll? hs hvar
  rcases List.mem_append.mp ht with ht | ht
  · split at ht
    · rw [List.mem_singleton.mp ht] at hvar
      exact absurd hvar Std.ExtTreeMap.not_mem_empty
    · cases ht
  · obtain ⟨⟨d, kind⟩, hedge, ht⟩ := List.mem_filterMap.mp ht
    obtain ⟨exit, hexit, ht⟩ := Option.bind_eq_some_iff.mp ht
    obtain ⟨hd, hkind⟩ := Flow.mem_incoming.mp hedge
    obtain ⟨c, i, hassigns⟩ := h.exit d hd exit hexit var (Block.mem_of_along? ht hvar)
    exact ⟨c, i, hassigns.tail (.edge hb (Flow.target_mem_of_mem_edges hkind))⟩

theorem step (h : p.Traced) (hstep : Stepped settings p q) : q.Traced := by
  cases hstep with
  | idle hpending hsettled => exact ⟨h.entry, h.exit⟩
  | @run place pending b incoming entry r hpending hplace hincoming hrenewal hmem hentry =>
    have hb := Flow.mem_blocks_of_mem_order hmem
    have hassigns : ∀ var ∈ entry, ∃ c i, g.Assigns var ⟨b, 0⟩ c i := by
      intro var hvar
      rcases hrenewal.mem_entry hvar with hnew | ⟨old, hold, hvar⟩
      · exact h.incoming hb hincoming var hnew
      · exact h.entry b hb old hold var hvar
    constructor
    · intro c hc s hs
      rw [getElem?_entries_run, hrenewal.entries_eq] at hs
      split at hs
      · rename_i hid
        obtain rfl := g.wellFormed.eq_of_id_eq hb hc hid
        exact Option.some.inj hs ▸ hassigns
      · exact h.entry c hc s hs
    · intro c hc s hs
      rw [getElem?_exits_run, hrenewal.exits_eq] at hs
      split at hs
      · rename_i hid
        obtain rfl := g.wellFormed.eq_of_id_eq hb hc hid
        rw [← Option.some.inj hs, ← Block.storeAt_length]
        exact Flow.assigns_storeAt hmem hassigns (Nat.le_refl _)
      · exact h.exit c hc s hs

theorem finish (g : Flow) (settings : Settings) :
    ((Progress.start g).finish settings).Traced :=
  finish_induction (fun _ _ h hstep => h.step hstep) (start g)

end Traced

end Progress

/-- A variable that has a value at a place of the solution was assigned on some path to it. -/
theorem Flow.exists_assigns {g : Flow} {settings : Settings} {b : Block} {entry : Store}
    (hb : b ∈ g.function.blocks) (hentry : (g.propagate settings).entries[b.id]? = some entry)
    {place : Nat} (hplace : place ≤ b.statements.length) {var : String}
    (hvar : var ∈ b.storeAt settings entry place) : ∃ c i, g.Assigns var ⟨b, place⟩ c i :=
  assigns_storeAt (mem_order_of_mem_entries hb (mem_entries_of_eq_some hentry))
    ((Progress.Traced.finish g settings).entry b hb entry hentry) hplace var hvar

end BufferBounds
