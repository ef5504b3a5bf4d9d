import BufferBounds.Propagation

/-!
# What is recorded

The buffers and the accesses of a solution are seen when each block that is reached is run once more
from its entry store. So for every record there is a block, and in its trace a statement with the
store that the record was made from; and where a block is reached nothing of it is left out.
-/

namespace BufferBounds

/-! ## Traces -/

namespace Block

variable {settings : Settings} {b : Block} {s entry : Store} {site : Site} {statement : Statement}

theorem map_traceFrom (settings : Settings) (s : Store) (l : List (Site × Statement)) :
    (traceFrom settings s l).map (fun (site, statement, _) => (site, statement)) = l := by
  induction l generalizing s with
  | nil => rfl
  | cons p l ih =>
    rw [traceFrom, List.map_cons, ih]

theorem mem_located_of_mem_trace (h : (site, statement, s) ∈ b.trace settings entry) :
    (site, statement) ∈ b.located := by
  rw [← map_traceFrom settings entry b.located]
  exact List.mem_map.mpr ⟨_, h, rfl⟩

/-- A site tells the block and the statement. -/
theorem getElem?_of_mem_located (h : (site, statement) ∈ b.located) :
    b.id = site.block ∧ b.statements[site.statement]? = some statement ∧
      statement.span = site.span := by
  obtain ⟨⟨statement', place⟩, hzip, heq⟩ := List.mem_map.mp h
  cases heq
  exact ⟨rfl, List.mem_zipIdx_iff_getElem?.mp hzip, rfl⟩

end Block

/-! ## Records -/

namespace Flow

variable {g : Flow} {settings : Settings}

section Observe

variable {α : Type} {see : Block → Store → List α} {entries : Table Store} {x : α}

theorem mem_observe {b : Block} (hb : b ∈ g.order) {entry : Store}
    (hentry : entries[b.id]? = some entry) (hx : x ∈ see b entry) : x ∈ g.observe entries see := by
  rw [observe]
  refine List.mem_flatMap.mpr ⟨b, hb, ?_⟩
  rw [hentry]
  exact hx

theorem exists_of_mem_observe (hx : x ∈ g.observe entries see) :
    ∃ b ∈ g.order, ∃ entry, entries[b.id]? = some entry ∧ x ∈ see b entry := by
  obtain ⟨b, hb, hx⟩ := List.mem_flatMap.mp hx
  split at hx
  · rename_i entry hentry
    exact ⟨b, hb, entry, hentry, hx⟩
  · cases hx

end Observe

/-- An access is recorded from a store in the trace of a block that is reached. -/
theorem exists_of_mem_accesses {a : Access} (ha : a ∈ (g.propagate settings).accesses) :
    ∃ b ∈ g.order, ∃ entry, (g.propagate settings).entries[b.id]? = some entry ∧
      ∃ site index s, (site, .access a.base index a.span, s) ∈ b.trace settings entry ∧
        a.index = index.number s ∧ a.pointer = s.pointer? a.base := by
  obtain ⟨b, hb, entry, hentry, ha⟩ := exists_of_mem_observe ha
  obtain ⟨⟨site, statement, s⟩, htrace, ha⟩ := List.mem_filterMap.mp ha
  cases statement with
  | assign target value span => cases ha
  | access base index span =>
    obtain rfl := Option.some.inj ha
    exact ⟨b, hb, entry, hentry, site, index, s, htrace, rfl, rfl⟩
  | eval expr span => cases ha

/-- A buffer is recorded from a store in the trace of a block that is reached. -/
theorem exists_of_mem_allocations {a : Allocation} (ha : a ∈ (g.propagate settings).allocations) :
    ∃ b ∈ g.order, ∃ entry, (g.propagate settings).entries[b.id]? = some entry ∧
      ∃ site statement s, (site, statement, s) ∈ b.trace settings entry ∧
        statement.allocation? settings site s = some a := by
  obtain ⟨b, hb, entry, hentry, ha⟩ := exists_of_mem_observe ha
  obtain ⟨⟨site, statement, s⟩, htrace, ha⟩ := List.mem_filterMap.mp ha
  exact ⟨b, hb, entry, hentry, site, statement, s, htrace, ha⟩

end Flow

end BufferBounds
