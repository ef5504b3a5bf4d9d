import BufferBounds.Proofs.Paths
import BufferBounds.Proofs.Reports

/-!
# The replay of a solution

The solution shows what is seen when every reached block is run once more from its entry store. A
`Replay` does this in one go: it carries the store along with the list of records and, if it is asked
for, the list of accesses, and adds to them at each statement. What it adds does not depend on what is
there already, nor does the store. So the accesses of the solution are those of the access statements
of the reached blocks, one for each and in their order, however often a block was run before; and so
are the records of the statements that allocate.
-/

namespace BufferBounds

/-! ## What a statement shows -/

namespace Statement

/-- The access that the statement makes in the store, in the function of this name. -/
inductive Makes (function : String) (s : Store) : Statement → Access → Prop where
  /-- what the base points to and the index are read in the store -/
  | access (base : String) (index : Expr) (span : Span) :
    Makes function s (.access base index span)
      { function, base, pointer := s.pointer? base, index := index.number s, span }

/-- The record of what the statement at the site allocates in the store. -/
inductive Allocates (settings : Settings) (site : Site) (s : Store) :
    Statement → Allocation → Prop where
  /-- the result of an allocator is assigned; the arguments that tell the size are read in the store -/
  | assign (target callee : String) (args : List Expr) (span : Span)
      (hcallee : callee ∈ settings.allocators) :
    Allocates settings site s (.assign target (.call callee args) span)
      { site, pointer := target, size := (SizeLayout.ofCallee callee).size (args.map (·.number s)) }

/-- Is it an access? -/
def isAccess : Statement → Bool
  | .access _ _ _ => true
  | _ => false

/-- Does it assign the result of an allocator? -/
def isAllocation (settings : Settings) : Statement → Bool
  | .assign _ (.call callee _) _ => settings.isAllocator callee
  | _ => false

variable {settings : Settings} {function : String} {site : Site} {s : Store} {statement : Statement}

theorem isSome_access? : (statement.access? function s).isSome = statement.isAccess := by
  cases statement <;> rfl

theorem makes_of_access? {a : Access} (h : statement.access? function s = some a) :
    statement.Makes function s a := by
  cases statement with
  | assign target value span => cases h
  | access base index span => exact Option.some.inj h ▸ .access base index span
  | eval expr span => cases h

theorem isSome_allocation? :
    (statement.allocation? settings site s).isSome = statement.isAllocation settings := by
  cases statement with
  | assign target value span =>
    cases value with
    | call callee args =>
      rw [allocation?, isAllocation]
      split
      · rename_i hcallee
        exact hcallee.symm
      · rename_i hcallee
        exact (Bool.eq_false_iff.mpr hcallee).symm
    | _ => rfl
  | access base index span => rfl
  | eval expr span => rfl

theorem allocates_of_allocation? {a : Allocation}
    (h : statement.allocation? settings site s = some a) :
    statement.Allocates settings site s a := by
  rw [allocation?.eq_def] at h
  split at h
  · split at h
    · rename_i hcallee
      exact Option.some.inj h ▸ .assign _ _ _ _ (of_decide_eq_true hcallee)
    · cases h
  · cases h

end Statement

/-! ## What a block shows -/

theorem forall₂_filterMap {α β : Type} (f : α → Option β) (l : List α) :
    List.Forall₂ (fun x y => f x = some y) (l.filter fun x => (f x).isSome) (l.filterMap f) := by
  induction l with
  | nil => exact .nil
  | cons x l ih =>
    cases hx : f x with
    | none => rwa [List.filter_cons_of_neg (by simp [hx]), List.filterMap_cons_none hx]
    | some y =>
      rw [List.filter_cons_of_pos (by simp [hx]), List.filterMap_cons_some hx]
      exact .cons hx ih

/-- The trace of a block shows its statements, each with the store that those before it lead to. -/
theorem Block.trace_eq_map (settings : Settings) (b : Block) (entry : Store) :
    b.trace settings entry = b.located.map fun p =>
      (p.1, p.2, b.storeAt settings entry p.1.statement) := by
  refine List.ext_getElem? fun place => ?_
  rw [List.getElem?_map]
  cases h : b.statements[place]? with
  | some statement =>
    rw [getElem?_trace h, getElem?_located h]
    rfl
  | none =>
    have hnone : b.located[place]? = none := by
      rw [List.getElem?_eq_none_iff] at h ⊢
      rwa [length_located]
    rw [trace, getElem?_traceFrom, hnone]
    rfl

/-! ## Replays -/

/-- What is carried along when blocks are run. -/
structure Replay where
  /-- what the variables hold -/
  store : Store
  /-- the buffers allocated so far -/
  allocations : List Allocation
  /-- the accesses made so far, if they are asked for -/
  accesses : Option (List Access)

namespace Replay

/-- Goes past the statement at the site. -/
def past (settings : Settings) (function : String) (r : Replay) (site : Site)
    (statement : Statement) : Replay where
  store := statement.after settings site r.store
  allocations := r.allocations ++ (statement.allocation? settings site r.store).toList
  accesses := r.accesses.map (· ++ (statement.access? function r.store).toList)

/-- Goes through some statements. -/
def pastAll (settings : Settings) (function : String) (r : Replay) (l : List (Site × Statement)) :
    Replay :=
  l.foldl (fun r p => r.past settings function p.1 p.2) r

/-- Goes through the block from the store `entry`. -/
def through (settings : Settings) (function : String) (r : Replay) (b : Block) (entry : Store) :
    Replay :=
  { r with store := entry }.pastAll settings function b.located

/-- Goes through the blocks that have an entry store, in the order of the flow graph. -/
def all (g : Flow) (settings : Settings) (entries : Table Store) (r : Replay) : Replay :=
  g.order.foldl
    (fun r b =>
      match entries[b.id]? with
      | some entry => r.through settings g.function.name b entry
      | none => r)
    r

variable {settings : Settings} {function : String}

/-- The store goes its own way, and the lists are continued by what the trace shows. -/
theorem pastAll_eq (r : Replay) (l : List (Site × Statement)) :
    r.pastAll settings function l =
      { store := l.foldl (fun s p => p.2.after settings p.1 s) r.store
        allocations := r.allocations ++ (Block.traceFrom settings r.store l).filterMap
          fun (site, statement, s) => statement.allocation? settings site s
        accesses := r.accesses.map (· ++ (Block.traceFrom settings r.store l).filterMap
          fun (_, statement, s) => statement.access? function s) } := by
  induction l generalizing r with
  | nil => simp [pastAll, Block.traceFrom]
  | cons p l ih =>
    obtain ⟨site, statement⟩ := p
    refine (ih (r.past settings function site statement)).trans ?_
    simp only [past, List.foldl_cons, Block.traceFrom, List.filterMap_cons, List.append_assoc,
      Option.map_map, Function.comp_def]
    cases statement.allocation? settings site r.store <;>
      cases statement.access? function r.store <;> rfl

theorem through_eq (r : Replay) (b : Block) (entry : Store) :
    r.through settings function b entry =
      { store := b.transfer settings entry
        allocations := r.allocations ++ b.allocations settings entry
        accesses := r.accesses.map (· ++ b.accesses settings function entry) } :=
  pastAll_eq _ _

theorem all_eq (g : Flow) (settings : Settings) (entries : Table Store) (r : Replay) :
    (r.all g settings entries).allocations =
        r.allocations ++ g.observe entries (fun b entry => b.allocations settings entry) ∧
      (r.all g settings entries).accesses =
        r.accesses.map (· ++ g.observe entries fun b entry =>
          b.accesses settings g.function.name entry) := by
  rw [all, Flow.observe, Flow.observe]
  generalize g.order = order
  induction order generalizing r with
  | nil => simp
  | cons b order ih =>
    rw [List.foldl_cons, List.flatMap_cons, List.flatMap_cons]
    obtain ⟨hallocations, haccesses⟩ := ih (match entries[b.id]? with
      | some entry => r.through settings g.function.name b entry
      | none => r)
    rw [hallocations, haccesses]
    cases entries[b.id]? with
    | none => exact ⟨rfl, rfl⟩
    | some entry =>
      simp only [through_eq, List.append_assoc, Option.map_map, Function.comp_def, and_self]

end Replay

/-! ## The solution -/

/-- A statement where it stands in a function. -/
structure Occurrence where
  /-- the block -/
  block : Block
  /-- the site in it -/
  site : Site
  /-- the statement -/
  statement : Statement

/-- The store before the statement, if its block is entered in `entry`. -/
def Occurrence.storeBefore (settings : Settings) (entry : Store) (o : Occurrence) : Store :=
  o.block.storeAt settings entry o.site.statement

/-- The statements of a block where they stand. -/
def Block.occurrences (b : Block) : List Occurrence :=
  b.located.map fun p => ⟨b, p.1, p.2⟩

/-- The statements of the blocks with an entry store, in the order of the flow graph. -/
def Flow.reachedStatements (g : Flow) (entries : Table Store) : List Occurrence :=
  (g.order.filter (·.id ∈ entries)).flatMap Block.occurrences

section

variable {α : Type} {settings : Settings} (see : Site → Statement → Store → Option α)
  {selected : Statement → Bool}
  (hsee : ∀ site statement s, (see site statement s).isSome = selected statement)
include hsee

/-- Where the statement alone tells whether it shows anything, the trace of a block shows one thing
for each statement that does. -/
theorem Block.forall₂_trace (b : Block) (entry : Store) :
    List.Forall₂ (fun o x => see o.site o.statement (o.storeBefore settings entry) = some x ∧
        o.block = b)
      (b.occurrences.filter (selected ·.statement))
      ((b.trace settings entry).filterMap fun (site, statement, s) => see site statement s) := by
  have hall := forall₂_filterMap
    (fun p : Site × Statement => see p.1 p.2 (b.storeAt settings entry p.1.statement)) b.located
  simp only [hsee] at hall
  rw [trace_eq_map, List.filterMap_map, occurrences, List.filter_map, List.forall₂_map_left_iff]
  exact hall.imp fun p x hx => ⟨hx, rfl⟩

/-- The replay of the reached blocks shows one thing for each of their statements that shows any. -/
theorem Flow.forall₂_observe (g : Flow) (entries : Table Store) :
    List.Forall₂
      (fun o x => ∃ entry, entries[o.block.id]? = some entry ∧
        see o.site o.statement (o.storeBefore settings entry) = some x)
      ((g.reachedStatements entries).filter (selected ·.statement))
      (g.observe entries fun b entry =>
        (b.trace settings entry).filterMap fun (site, statement, s) => see site statement s) := by
  rw [reachedStatements, observe]
  induction g.order with
  | nil => exact .nil
  | cons b order ih =>
    rw [List.flatMap_cons]
    cases hentry : entries[b.id]? with
    | none =>
      have hout : b.id ∉ entries := by
        rw [Table.mem_iff_exists, hentry]
        rintro ⟨entry, ⟨⟩⟩
      rw [List.filter_cons_of_neg (by simpa using hout)]
      exact ih
    | some entry =>
      have hin : b.id ∈ entries := Table.mem_of_eq_some hentry
      rw [List.filter_cons_of_pos (by simpa using hin), List.flatMap_cons, List.filter_append]
      refine List.rel_append ((b.forall₂_trace see hsee entry).imp ?_) ih
      rintro o x ⟨hx, rfl⟩
      exact ⟨entry, hentry, hx⟩

end

namespace Flow

/-- **The replay loses nothing, repeats nothing and disturbs no store.** The accesses of the solution
are those of the access statements of the reached blocks: one for each, in the order of the blocks and
their statements, with the index and the pointer read in the store that the statements before it lead
to from the entry store of its block. Likewise there is one record for each statement of them that
assigns the result of an allocator. Replaying the blocks adds exactly these to whatever lists it is
given, and at the end of each block it has the exit store of the solution. So the summary of a report
counts every access statement of a reached block once, however often the block was run. -/
theorem replay_complete (g : Flow) (settings : Settings) :
    let r := g.propagate settings
    List.Forall₂
      (fun o a => ∃ entry, r.entries[o.block.id]? = some entry ∧
        o.statement.Makes g.function.name (o.storeBefore settings entry) a)
      ((g.reachedStatements r.entries).filter (·.statement.isAccess)) r.accesses ∧
    List.Forall₂
      (fun o a => ∃ entry, r.entries[o.block.id]? = some entry ∧
        o.statement.Allocates settings o.site (o.storeBefore settings entry) a)
      ((g.reachedStatements r.entries).filter (·.statement.isAllocation settings))
      r.allocations ∧
    (∀ start : Replay,
      (start.all g settings r.entries).allocations = start.allocations ++ r.allocations ∧
      (start.all g settings r.entries).accesses = start.accesses.map (· ++ r.accesses)) ∧
    (∀ start : Replay, ∀ b ∈ g.function.blocks, ∀ entry, r.entries[b.id]? = some entry →
      r.exits[b.id]? = some (start.through settings g.function.name b entry).store) ∧
    ∀ a : Analyzer, a.settings = settings → ∃ report,
      a.analyzeFunction g.function = .ok report ∧
      report.summary.total = (g.reachedStatements r.entries).countP (·.statement.isAccess) := by
  intro r
  have haccesses : List.Forall₂
      (fun o a => ∃ entry, r.entries[o.block.id]? = some entry ∧
        o.statement.access? g.function.name (o.storeBefore settings entry) = some a)
      ((g.reachedStatements r.entries).filter (·.statement.isAccess)) r.accesses :=
    g.forall₂_observe (fun _ statement s => statement.access? g.function.name s)
      (fun _ _ _ => Statement.isSome_access?) r.entries
  have hallocations : List.Forall₂
      (fun o a => ∃ entry, r.entries[o.block.id]? = some entry ∧
        o.statement.allocation? settings o.site (o.storeBefore settings entry) = some a)
      ((g.reachedStatements r.entries).filter (·.statement.isAllocation settings))
      r.allocations :=
    g.forall₂_observe (fun site statement s => statement.allocation? settings site s)
      (fun _ _ _ => Statement.isSome_allocation?) r.entries
  refine ⟨haccesses.imp ?_, hallocations.imp ?_, fun start => start.all_eq g settings r.entries,
    ?_, ?_⟩
  · rintro o a ⟨entry, hentry, ha⟩
    exact ⟨entry, hentry, Statement.makes_of_access? ha⟩
  · rintro o a ⟨entry, hentry, ha⟩
    exact ⟨entry, hentry, Statement.allocates_of_allocation? ha⟩
  · intro start b hb entry hentry
    rw [Replay.through_eq]
    exact exits_eq_transfer hb hentry
  · rintro a rfl
    refine ⟨_, a.analyzeFunction_function g, ?_⟩
    rw [a.summary_reportOn g, Tally.total_foldl_count, List.length_map, List.countP_eq_length_filter,
      haccesses.length_eq]
    exact Nat.zero_add _

end Flow

end BufferBounds
