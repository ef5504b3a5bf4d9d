import BufferBounds.Proofs.Hereditary
import BufferBounds.Proofs.Paths

/-!
# Sites of buffers

No buffer has a site that was not recorded. Sites travel through copies, choices and joins while the
propagation runs, and the records are made at its end, when each block is run once more. What holds
the two together is that a site tells a statement: it is one that allocates, in a block that is
reached. Blocks stay reached, so this is never lost, and such a statement allocates whatever store
its block is entered in, so it is recorded at the end though its store may be another one then.
-/

namespace BufferBounds

/-! ## Statements that allocate -/

/-- The statement of the block at the site assigns the result of an allocator to the variable. -/
def Block.AllocatesAt (settings : Settings) (b : Block) (site : Site) (pointer : String) : Prop :=
  b.id = site.block ∧ ∃ callee args,
    b.statements[site.statement]? = some (.assign pointer (.call callee args) site.span) ∧
      settings.isAllocator callee = true

section Allocation

variable {settings : Settings} {s : Store} {site : Site} {statement : Statement} {a : Allocation}

theorem Statement.allocation?_eq_some (h : statement.allocation? settings site s = some a) :
    a.site = site ∧ ∃ callee args span, statement = .assign a.pointer (.call callee args) span ∧
      settings.isAllocator callee = true := by
  rw [allocation?.eq_def] at h
  split at h
  · rename_i target callee args span
    split at h
    · rename_i hcallee
      obtain rfl := Option.some.inj h
      exact ⟨rfl, callee, args, span, rfl, hcallee⟩
    · cases h
  · cases h

theorem Statement.exists_allocation? {pointer callee : String} {args : List Expr} {span : Span}
    (hcallee : settings.isAllocator callee = true) :
    ∃ a, (assign pointer (.call callee args) span).allocation? settings site s = some a ∧
      a.site = site := by
  rw [allocation?, if_pos hcallee]
  exact ⟨_, rfl, rfl⟩

namespace Block

variable {b : Block}

theorem allocatesAt_of_allocation? (h : (site, statement) ∈ b.located)
    (ha : statement.allocation? settings site s = some a) :
    b.AllocatesAt settings a.site a.pointer := by
  obtain ⟨hid, hplace, hspan⟩ := getElem?_of_mem_located h
  obtain ⟨rfl, callee, args, span, rfl, hcallee⟩ := Statement.allocation?_eq_some ha
  obtain rfl : span = a.site.span := hspan
  exact ⟨hid, callee, args, hplace, hcallee⟩

/-- What a block allocates is recorded with the statement that allocates it. -/
theorem allocatesAt_of_mem_allocations (ha : a ∈ b.allocations settings s) :
    b.AllocatesAt settings a.site a.pointer := by
  obtain ⟨⟨site, statement, t⟩, htrace, ha⟩ := List.mem_filterMap.mp ha
  exact allocatesAt_of_allocation? (mem_located_of_mem_trace htrace) ha

/-- A statement that allocates does so from whatever store its block is entered in. -/
theorem AllocatesAt.exists_mem_allocations {pointer : String}
    (h : b.AllocatesAt settings site pointer) (entry : Store) :
    ∃ a ∈ b.allocations settings entry, a.site = site := by
  obtain ⟨block, place, span⟩ := site
  obtain ⟨rfl, callee, args, hplace, hcallee⟩ := h
  have htrace : (b.trace settings entry)[place]? = some _ := getElem?_trace hplace
  obtain ⟨a, ha, hsite⟩ := Statement.exists_allocation? hcallee
  exact ⟨a, List.mem_filterMap.mpr ⟨_, List.mem_of_getElem? htrace, ha⟩, hsite⟩

/-- The sites that statements allocate at are some of theirs, in their order. -/
theorem sites_traceFrom_sublist (settings : Settings) (s : Store) (l : List (Site × Statement)) :
    (((traceFrom settings s l).filterMap fun (site, statement, s) =>
      statement.allocation? settings site s).map (·.site)).Sublist (l.map Prod.fst) := by
  induction l generalizing s with
  | nil => exact .slnil
  | cons p l ih =>
    rw [traceFrom, List.filterMap_cons, List.map_cons]
    split
    · exact (ih _).cons _
    · rename_i a ha
      rw [List.map_cons, (Statement.allocation?_eq_some ha).1]
      exact (ih _).cons_cons _

/-- The sites of the statements of a block differ, as the places do. -/
theorem nodup_sites_located (b : Block) : (b.located.map Prod.fst).Nodup := by
  have hplaces :
      (b.located.map Prod.fst).map Site.statement = List.range' 0 b.statements.length := by
    rw [located, List.map_map, List.map_map]
    exact List.zipIdx_map_snd 0 b.statements
  exact .of_map Site.statement (hplaces ▸ List.nodup_range')

theorem nodup_sites_allocations (settings : Settings) (b : Block) (s : Store) :
    ((b.allocations settings s).map (·.site)).Nodup :=
  (sites_traceFrom_sublist settings s b.located).nodup b.nodup_sites_located

end Block

end Allocation

/-! ## Buffers with sites -/

/-- A tracked buffer has a site, and the condition holds of all that it has. -/
def Pointer.Sited (recorded : Site → Prop) : Pointer → Prop
  | .buffer sites _ => (∃ site, site ∈ sites) ∧ ∀ site ∈ sites, recorded site
  | .untracked => True

/-- If the value is a tracked buffer it has a site, and the condition holds of all that it has. -/
def Value.Sited (recorded : Site → Prop) : Value → Prop
  | .scalar _ => True
  | .pointer p => p.Sited recorded

section Sited

variable {recorded recorded' : Site → Prop}

theorem Pointer.sited_fresh {site : Site} (h : recorded site) (size : Interval) :
    (Pointer.fresh site size).Sited recorded := by
  have hmem : ∀ site', site' ∈ Std.ExtTreeSet.ofList [site] ↔ site' = site := by
    intro site'
    rw [Std.ExtTreeSet.mem_ofList, List.contains_iff_mem, List.mem_singleton]
  exact ⟨⟨site, (hmem site).mpr rfl⟩, fun site' hsite => (hmem site').mp hsite ▸ h⟩

theorem Pointer.Sited.join {p q : Pointer} (hp : p.Sited recorded) (hq : q.Sited recorded) :
    (p.join q).Sited recorded := by
  cases p with
  | untracked => exact trivial
  | buffer sites size =>
    cases q with
    | untracked => exact trivial
    | buffer sites' size' =>
      obtain ⟨⟨site, hsite⟩, hsites⟩ := hp
      obtain ⟨-, hsites'⟩ := hq
      refine ⟨⟨site, Std.ExtTreeSet.mem_union_iff.mpr (Or.inl hsite)⟩, ?_⟩
      intro site hsite
      rcases Std.ExtTreeSet.mem_union_iff.mp hsite with h | h
      · exact hsites site h
      · exact hsites' site h

theorem Pointer.Sited.mono {p : Pointer} (hp : p.Sited recorded)
    (h : ∀ site, recorded site → recorded' site) : p.Sited recorded' := by
  cases p with
  | buffer sites size => exact ⟨hp.1, fun site hsite => h site (hp.2 site hsite)⟩
  | untracked => exact trivial

theorem Value.Sited.mono {x : Value} (hx : x.Sited recorded)
    (h : ∀ site, recorded site → recorded' site) : x.Sited recorded' := by
  cases x with
  | scalar i => exact trivial
  | pointer p => exact Pointer.Sited.mono hx h

theorem Value.hereditary_sited (recorded : Site → Prop) : Hereditary (Sited recorded) where
  top := trivial
  untracked := trivial
  join x y hx hy := by
    cases x with
    | scalar i => cases y <;> exact trivial
    | pointer p =>
      cases y with
      | scalar j => exact trivial
      | pointer q => exact Pointer.Sited.join hx hy
  number _ _ _ := trivial
  meet? _ _ _ _ _ := trivial

end Sited

/-! ## Sites through the propagation -/

namespace Progress

variable {g : Flow} {settings : Settings} {p q : Progress g}

/-- The site is that of a statement that allocates, in a block that was reached. -/
def Allocated (settings : Settings) (p : Progress g) (site : Site) : Prop :=
  ∃ b ∈ g.order, b.id ∈ p.entries ∧ ∃ pointer, b.AllocatesAt settings site pointer

/-- Blocks that were reached stay so, and their sites with them. -/
theorem Stepped.allocated {site : Site} (hstep : Stepped settings p q)
    (h : p.Allocated settings site) : q.Allocated settings site := by
  obtain ⟨b, hb, hid, hallocates⟩ := h
  refine ⟨b, hb, ?_, hallocates⟩
  cases hstep with
  | idle hpending hsettled => exact hid
  | run hpending hplace hincoming hrenewal hmem hentry =>
    exact mem_entries_run.mpr (Or.inr (hrenewal.entries_eq ▸ hid))

theorem supplies_sited {b : Block} (hb : b ∈ g.order) (hid : b.id ∈ p.entries) :
    Supplies settings (Value.Sited (p.Allocated settings)) b.located := by
  intro site statement hmem s hs a ha
  exact Pointer.sited_fresh ⟨b, hb, hid, _, Block.allocatesAt_of_allocation? hmem ha⟩ a.size

/-- All buffers found so far have sites where blocks that were reached allocate. -/
def Sited (settings : Settings) (p : Progress g) : Prop :=
  p.All (Value.Sited (p.Allocated settings))

namespace Sited

theorem step (h : p.Sited settings) (hstep : Stepped settings p q) : q.Sited settings := by
  have hold : p.All (Value.Sited (q.Allocated settings)) :=
    All.mono h fun x hx => hx.mono fun site => hstep.allocated
  exact hold.step (Value.hereditary_sited _) hstep fun b hb hid => supplies_sited hb hid

theorem finish (g : Flow) (settings : Settings) :
    ((Progress.start g).finish settings).Sited settings :=
  finish_induction (fun _ _ h hstep => h.step hstep) (All.start g _)

end Sited

end Progress

/-! ## Records -/

/-- Exactly one record is that of the site. -/
def Solution.RecordsOnce (r : Solution) (site : Site) : Prop :=
  (r.allocations.map (·.site)).count site = 1

namespace Flow

variable {g : Flow} {settings : Settings}

/-- The sites in a block differ, and the sites in two blocks differ as the blocks do. -/
theorem nodup_sites_propagate (g : Flow) (settings : Settings) :
    ((g.propagate settings).allocations.map (·.site)).Nodup := by
  change (List.map _ (g.observe _ _)).Nodup
  rw [observe, List.map_flatMap, List.nodup_flatMap]
  constructor
  · intro b hb
    split
    · exact b.nodup_sites_allocations settings _
    · exact List.nodup_nil
  · have hids : g.order.Pairwise fun b c => b.id ≠ c.id := List.pairwise_map.mp g.nodup_orderIds
    refine hids.imp fun {b c} hne => List.disjoint_left.mpr fun site hb hc => hne ?_
    obtain ⟨a, ha, rfl⟩ := List.mem_map.mp hb
    obtain ⟨a', ha', hsite⟩ := List.mem_map.mp hc
    split at ha
    · split at ha'
      · rw [(Block.allocatesAt_of_mem_allocations ha).1,
          (Block.allocatesAt_of_mem_allocations ha').1, hsite]
      · cases ha'
    · cases ha

theorem recordsOnce_of_allocated {site : Site}
    (h : ((Progress.start g).finish settings).Allocated settings site) :
    (g.propagate settings).RecordsOnce site := by
  obtain ⟨b, hb, hid, pointer, hallocates⟩ := h
  obtain ⟨entry, hentry⟩ := Table.mem_iff_exists.mp hid
  obtain ⟨a, ha, rfl⟩ := hallocates.exists_mem_allocations entry
  apply List.count_eq_one_of_mem (g.nodup_sites_propagate settings)
  exact List.mem_map_of_mem (mem_observe hb hentry ha)

/-- **No site is left unrecorded.** Whatever the function and the settings are, every buffer in an
entry store, in an exit store or in what is recorded of an access has a site, and for each of its
sites there is exactly one record. No two records have the same site, and the site of a record is
that of a statement of a reached block which assigns the result of an allocator to the variable of
the record. Nor is such a statement left out. -/
theorem sites_recorded (g : Flow) (settings : Settings) :
    let r := g.propagate settings
    (∀ (id : String) (s : Store), r.entries[id]? = some s → s.All (Value.Sited r.RecordsOnce)) ∧
      (∀ (id : String) (s : Store), r.exits[id]? = some s → s.All (Value.Sited r.RecordsOnce)) ∧
      (∀ a ∈ r.accesses, ∀ p, a.pointer = some p → p.Sited r.RecordsOnce) ∧
      (r.allocations.map (·.site)).Nodup ∧
      (∀ a ∈ r.allocations, ∃ b ∈ g.function.blocks, b.id ∈ r.entries ∧
        b.AllocatesAt settings a.site a.pointer) ∧
      ∀ b ∈ g.function.blocks, b.id ∈ r.entries →
        ∀ site pointer, b.AllocatesAt settings site pointer → r.RecordsOnce site := by
  have hsited := Progress.Sited.finish g settings
  have hall : ((Progress.start g).finish settings).All
      (Value.Sited (g.propagate settings).RecordsOnce) :=
    hsited.mono fun x hx => hx.mono fun site => recordsOnce_of_allocated
  refine ⟨hall.entry, hall.exit, ?_, g.nodup_sites_propagate settings, ?_, ?_⟩
  · intro a ha p hp
    have haccess := all_of_mem_accesses ha (Value.hereditary_sited _) hsited.entry
      fun b hb hid => Progress.supplies_sited hb hid
    exact Pointer.Sited.mono (haccess.2 p hp) fun site => recordsOnce_of_allocated
  · intro a ha
    obtain ⟨b, hb, entry, hentry, ha⟩ := exists_of_mem_observe ha
    exact ⟨b, mem_blocks_of_mem_order hb, mem_entries_of_eq_some hentry,
      Block.allocatesAt_of_mem_allocations ha⟩
  · intro b hb hid site pointer hallocates
    exact recordsOnce_of_allocated ⟨b, mem_order_of_mem_entries hb hid, hid, pointer, hallocates⟩

end Flow

end BufferBounds
