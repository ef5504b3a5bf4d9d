import BufferBounds.Proofs.Determinacy
import BufferBounds.Proofs.KnownNumbers
import BufferBounds.Proofs.Soundness

/-!
# Determined runs are found exactly

On a determined run of a function without loops the propagation loses nothing: the stores it finds
tell of every variable exactly what the run has given it, only the blocks that the run comes to are
reached, and every access it makes is judged as it is. The invariant `Exact` says so of the stores
found so far. It is kept since of the edges that leave a block only the one that the run takes lets
a store through, so what arrives at a block are copies of one store.
-/

namespace BufferBounds

/-! ## Stores that match -/

/-- The value that tells exactly what the content is. -/
def Content.value : Content → Value
  | .number n => .scalar (.constant n)
  | .buffer site size => .pointer (.fresh site (.constant size))

/-- The store tells exactly what the memory holds. -/
def Store.Matches (s : Store) (m : Memory) : Prop :=
  ∀ var, s.get? var = (m var).map Content.value

section

variable {settings : Settings} {s t : Store} {m m' : Memory}

namespace Store.Matches

theorem unique (hs : s.Matches m) (ht : t.Matches m) : s = t := by
  ext1 var
  rw [hs var, ht var]

theorem bind (hs : s.Matches m) (var : String) (d : Content) :
    (s.bind var d.value).Matches (m.set var d) := by
  intro var'
  rw [get?_bind]
  by_cases heq : var = var'
  · subst heq
    rw [if_pos rfl, Memory.set_self, Option.map_some]
  · rw [if_neg heq, Memory.set_of_ne heq, hs var']

theorem number (hs : s.Matches m) {var : String} {n : Int64} (h : m var = some (.number n)) :
    s.get? var = some (.scalar (.constant n)) := by
  rw [hs var, h]
  rfl

theorem buffer (hs : s.Matches m) {var : String} {site : Site} {size : Int64}
    (h : m var = some (.buffer site size)) :
    s.pointer? var = some (.fresh site (.constant size)) := by
  rw [pointer?_eq_some_iff, hs var, h]
  rfl

/-- Where no buffer is there is no pointer. -/
theorem pointer?_eq_none (hs : s.Matches m) {var : String}
    (h : (m var).all (·.isBuffer = false)) : s.pointer? var = none := by
  rw [pointer?, hs var]
  cases hd : m var with
  | none => rfl
  | some d =>
    cases d with
    | number n => rfl
    | buffer site size =>
      rw [hd] at h
      cases h

end Store.Matches

/-! ## Expressions and statements -/

theorem Expr.number_of_determined? {e : Expr} {n : Int64} (h : e.determined? m = some n)
    (hs : s.Matches m) : e.number s = .constant n := by
  fun_induction determined? m e generalizing n with
  | case1 n' =>
    obtain rfl := Option.some.inj h
    rfl
  | case2 name n' hn =>
    obtain rfl := Option.some.inj h
    rw [number, Store.number, hs.number hn]
    rfl
  | case3 => cases h
  | case4 lhs rhs ihl ihr =>
    obtain ⟨a, ha, h⟩ := Option.bind_eq_some_iff.mp h
    obtain ⟨b, hb, h⟩ := Option.bind_eq_some_iff.mp h
    rw [number, ihl ha, ihr hb]
    exact Interval.add_constant h
  | case5 lhs rhs ihl ihr =>
    obtain ⟨a, ha, h⟩ := Option.bind_eq_some_iff.mp h
    obtain ⟨b, hb, h⟩ := Option.bind_eq_some_iff.mp h
    rw [number, ihl ha, ihr hb]
    exact Interval.sub_constant h
  | case6 => cases h

theorem SizeLayout.size_of_determined? {layout : SizeLayout} {args : List Expr} {size : Int64}
    (h : layout.determined? m args = some size) (hs : s.Matches m) :
    layout.size (args.map (·.number s)) = .constant size := by
  cases layout with
  | single place =>
    obtain ⟨e, he, h⟩ := Option.bind_eq_some_iff.mp h
    rw [SizeLayout.size, List.getElem?_map, he]
    exact Expr.number_of_determined? h hs
  | product place₁ place₂ =>
    obtain ⟨e₁, he₁, h⟩ := Option.bind_eq_some_iff.mp h
    obtain ⟨e₂, he₂, h⟩ := Option.bind_eq_some_iff.mp h
    obtain ⟨a, ha, h⟩ := Option.bind_eq_some_iff.mp h
    obtain ⟨b, hb, h⟩ := Option.bind_eq_some_iff.mp h
    rw [SizeLayout.size, List.getElem?_map, List.getElem?_map, he₁, he₂]
    simp only [Option.map_some, Expr.number_of_determined? ha hs,
      Expr.number_of_determined? hb hs, Interval.mul, h, Option.getD_some]

theorem Expr.value_of_determined? {e : Expr} {n : Int64} (h : e.determined? m = some n)
    (hs : s.Matches m) : e.value s = .scalar (.constant n) := by
  have hnumber := number_of_determined? h hs
  rw [value.eq_def]
  split
  · rename_i name
    rw [determined?.eq_def] at h
    simp only at h
    split at h
    · rename_i n' hn
      obtain rfl := Option.some.inj h
      rw [hs.number hn, Option.getD_some]
    · cases h
  · cases h
  · rw [hnumber]

/-- A number is assigned as it is, as the variable held no buffer and is not taken to hold one
still. -/
theorem Store.Matches.assign_number {target : String} {value : Expr} {n : Int64}
    (hs : s.Matches m) (hn : value.determined? m = some n)
    (htarget : (m target).all (·.isBuffer = false)) :
    s.assign target value = s.bind target (Content.number n).value := by
  rw [Store.assign_eq_bind, Expr.value_of_determined? hn hs, stored, hs.pointer?_eq_none htarget]
  rfl

theorem Store.Matches.assign {target : String} {value : Expr} {d : Content} (hs : s.Matches m)
    (hd : value.content? m = some d) (hput : m.put? target d = some m') :
    (s.assign target value).Matches m' := by
  rw [Memory.eq_set_of_put? hput]
  have hnumber : ∀ n, d = .number n → value.determined? m = some n →
      (s.assign target value).Matches (m.set target d) := by
    rintro n rfl hn
    rw [hs.assign_number hn]
    · exact hs.bind target (.number n)
    · rw [Memory.put?] at hput
      split at hput
      · rename_i hkind
        exact hkind
      · cases hput
  rw [Expr.content?.eq_def] at hd
  split at hd
  · rename_i source
    cases d with
    | buffer site size =>
      have hsource := pointer?_eq_some_iff.mp (hs.buffer hd)
      rw [Store.assign_eq_bind, Expr.value, hsource, Option.getD_some, stored_pointer]
      exact hs.bind target (.buffer site size)
    | number n =>
      refine hnumber n rfl ?_
      rw [Expr.determined?.eq_def]
      simp only [hd]
  · obtain ⟨n, hn, rfl⟩ := Option.map_eq_some_iff.mp hd
    exact hnumber n rfl hn

theorem Statement.matches_after {statement : Statement} {site : Site} (hs : s.Matches m)
    (h : statement.determined? settings site m = some m') :
    (statement.after settings site s).Matches m' := by
  rw [determined?.eq_def] at h
  split at h
  · rename_i target callee args span
    split at h
    · rename_i hcallee
      obtain ⟨size, hsize, h⟩ := Option.bind_eq_some_iff.mp h
      rw [Memory.eq_set_of_put? h, after_allocate hcallee,
        SizeLayout.size_of_determined? hsize hs]
      exact hs.bind target (.buffer site size)
    · cases h
  · rename_i target value span hvalue
    obtain ⟨d, hd, h⟩ := Option.bind_eq_some_iff.mp h
    rw [after_assign fun callee args heq => (hvalue callee args heq).elim]
    exact hs.assign hd h
  · split at h
    · obtain rfl := Option.some.inj h
      exact hs
    · cases h
  · obtain rfl := Option.some.inj h
    exact hs

/-- An access to a buffer at a number is judged as it is. -/
theorem Store.Matches.classify_access {function base : String} {index : Expr} {span : Span}
    {alloc : Site} {size n : Int64} {a : Access} (hs : s.Matches m)
    (hbase : m base = some (.buffer alloc size)) (hindex : index.determined? m = some n)
    (ha : (Statement.access base index span).access? function s = some a)
    (policy : StraddlePolicy) :
    (Checker.bounds policy).classify a =
      if 0 ≤ n.toInt ∧ n.toInt < size.toInt then .inBounds else .outOfBounds := by
  obtain rfl := Option.some.inj ha
  simp only [Checker.bounds, Access.size?, hs.buffer hbase,
    Expr.number_of_determined? hindex hs, Pointer.fresh, Option.bind_some, Pointer.size?]
  exact policy.classify_constant size n

/-! ## Edges -/

/-- Only the edge that the run takes lets a store through, which is the store itself. -/
theorem Block.along?_of_determined? {b : Block} {target target' : String} {kind kind' : EdgeKind}
    (hnarrow : settings.branchNarrowing = true) (hs : s.Matches m)
    (h : b.terminator.determined? m = some (target, kind))
    (hedge : (target', kind') ∈ b.terminator.edges) (ht : b.along? settings kind' s = some t) :
    target' = target ∧ t = s := by
  rcases hb : b.terminator with next | ⟨_ | c, thenBlock, elseBlock⟩ | _
  · rw [hb] at h hedge
    cases h
    cases List.mem_singleton.mp hedge
    rw [along?_jump] at ht
    exact ⟨rfl, (Option.some.inj ht).symm⟩
  · rw [hb] at h
    cases h
  · have hc : b.terminator.condition? = some c := by rw [hb]; rfl
    rw [hb] at h hedge
    rw [Terminator.determined?] at h
    split at h
    · rename_i a n ha hn
      have hassume : ∀ op, s.assume? c.var op (c.value.number s) =
          if op.Holds a.toInt n.toInt then some s else none := by
        intro op
        rw [Expr.number_of_determined? hn hs]
        exact Store.assume?_constant (hs.number ha) op
      rcases List.mem_cons.mp hedge with heq | hedge
      · cases heq
        rw [along?_whenTrue hnarrow hc, hassume] at ht
        split at ht
        · rename_i hholds
          rw [if_pos hholds] at h
          cases h
          exact ⟨rfl, (Option.some.inj ht).symm⟩
        · cases ht
      · cases List.mem_singleton.mp hedge
        rw [along?_whenFalse hnarrow hc, hassume] at ht
        split at ht
        · rename_i hholds
          rw [if_neg (Comparison.holds_negate.mp hholds)] at h
          cases h
          exact ⟨rfl, (Option.some.inj ht).symm⟩
        · cases ht
    · cases h
  · rw [hb] at h
    cases h

end

/-! ## The invariant -/

theorem Store.eq_of_joinAll? {ss : List Store} {s t : Store} (h : joinAll? ss = some t)
    (hss : ∀ s' ∈ ss, s' = s) : t = s := by
  cases ss with
  | nil => cases h
  | cons s₀ ss =>
    obtain rfl := Option.some.inj h
    obtain rfl := hss s₀ (List.mem_cons_self ..)
    have htail := fun s' hs' => hss s' (List.mem_cons_of_mem _ hs')
    clear h hss
    induction ss with
    | nil => rfl
    | cons s₁ ss ih =>
      rw [List.foldl_cons, htail s₁ (List.mem_cons_self ..), join_self]
      exact ih fun s' hs' => htail s' (List.mem_cons_of_mem _ hs')

namespace Flow

variable {g : Flow} {settings : Settings} {exits : Table Store} {b : Block} {s t : Store}
  {m : Memory} {c : Config}

/-- What is left of a block is run to its end, with a matching store. -/
theorem Executes.exists_end {rest : List (Site × Statement)}
    (h : g.Executes settings ⟨b, rest, m⟩) (hg : g.Determined settings) (hs : s.Matches m) :
    ∃ m', g.Executes settings ⟨b, [], m'⟩ ∧
      (rest.foldl (fun s (site, statement) => statement.after settings site s) s).Matches m' := by
  induction rest generalizing m s with
  | nil => exact ⟨m, h, hs⟩
  | cons p rest ih =>
    obtain ⟨m', hm', h'⟩ := h.exists_statement hg
    exact ih h' (Statement.matches_after hs hm')

/-- The stores are those of ends of blocks that the run comes to. -/
def ExitsMatch (g : Flow) (settings : Settings) (exits : Table Store) : Prop :=
  ∀ b ∈ g.function.blocks, ∀ s, exits[b.id]? = some s →
    ∃ m, g.Executes settings ⟨b, [], m⟩ ∧ s.Matches m

/-- Whatever arrives at a block, the run comes there with a memory that it matches. -/
theorem ExitsMatch.arriving (hexits : g.ExitsMatch settings exits) (hg : g.Determined settings)
    (hnarrow : settings.branchNarrowing = true) (hb : b ∈ g.function.blocks)
    (ht : t ∈ g.arriving settings exits b.id) :
    ∃ m, g.Executes settings ⟨b, b.located, m⟩ ∧ t.Matches m := by
  rcases List.mem_append.mp ht with ht | ht
  · split at ht
    · rename_i hid
      rw [List.mem_singleton.mp ht]
      have hentry : g.function.block? g.function.entry = some b := by
        rw [← hid]
        exact g.wellFormed.block?_id hb
      exact ⟨_, ⟨b, hentry, Relation.ReflTransGen.refl⟩, Store.get?_empty⟩
    · cases ht
  · obtain ⟨⟨b', kind⟩, hincoming, ht⟩ := List.mem_filterMap.mp ht
    obtain ⟨exit, hexit, ht⟩ := Option.bind_eq_some_iff.mp ht
    obtain ⟨hb', hedge⟩ := mem_incoming.mp hincoming
    obtain ⟨m, hexecutes, hmatches⟩ := hexits b' hb' exit hexit
    obtain ⟨target, kind', c, htaken, hc, hnext⟩ :=
      hexecutes.exists_edge hg (List.ne_nil_of_mem hedge)
    -- the edge is the one that the run takes, so the run comes to this block
    obtain ⟨rfl, rfl⟩ := Block.along?_of_determined? hnarrow hmatches htaken hedge ht
    obtain rfl : b = c := by
      rw [g.wellFormed.block?_id hb] at hc
      exact Option.some.inj hc
    exact ⟨m, hnext, hmatches⟩

theorem ExitsMatch.incomingStore? (hexits : g.ExitsMatch settings exits)
    (hg : g.Determined settings) (hnarrow : settings.branchNarrowing = true)
    (hacyclic : g.function.Acyclic) (hb : b ∈ g.function.blocks)
    (hs : g.incomingStore? settings exits b.id = some s) :
    ∃ m, g.Executes settings ⟨b, b.located, m⟩ ∧ s.Matches m := by
  have harriving := fun t => hexits.arriving (t := t) hg hnarrow hb
  rw [Flow.incomingStore?] at hs
  cases hss : g.arriving settings exits b.id with
  | nil =>
    rw [hss] at hs
    cases hs
  | cons s₀ ss =>
    rw [hss] at hs harriving
    obtain ⟨m, hexecutes, hmatches⟩ := harriving s₀ (List.mem_cons_self ..)
    -- the run comes to the block only once, so all that arrives are copies of one store
    have hall : ∀ t ∈ s₀ :: ss, t = s₀ := by
      intro t ht
      obtain ⟨m', hexecutes', hmatches'⟩ := harriving t ht
      obtain rfl := hexecutes.memory_eq hexecutes' hacyclic
      exact hmatches'.unique hmatches
    rw [Store.eq_of_joinAll? hs hall]
    exact ⟨m, hexecutes, hmatches⟩

end Flow

namespace Progress

variable {g : Flow} {settings : Settings} {p q : Progress g}

/-- The stores found so far are those of blocks that the run comes to. -/
structure Exact (settings : Settings) (p : Progress g) : Prop where
  /-- a store at the start of a block matches what the run holds there -/
  entry : ∀ b ∈ g.function.blocks, ∀ s, p.entries[b.id]? = some s →
    ∃ m, g.Executes settings ⟨b, b.located, m⟩ ∧ s.Matches m
  /-- a store at the end of a block matches what the run holds there -/
  exit : g.ExitsMatch settings p.exits

namespace Exact

theorem start (g : Flow) (settings : Settings) : Exact settings (start g) where
  entry b _ s h := by simp [Progress.start] at h
  exit b _ s h := by simp [Progress.start] at h

/-- A visit runs the block from the store that arrives: a store that was there before is the same
one, and joining it would change nothing. -/
theorem entry_eq_incoming (h : Exact settings p) {b : Block} {incoming entry : Store} {m : Memory}
    (hacyclic : g.function.Acyclic) (hb : b ∈ g.function.blocks)
    (hexecutes : g.Executes settings ⟨b, b.located, m⟩) (hmatches : incoming.Matches m)
    (hrenewal : Renewal settings p b incoming entry q) : entry = incoming := by
  have hsame : ∀ old, p.entries[b.id]? = some old → old.join incoming = old := by
    intro old hold
    obtain ⟨m', hexecutes', hmatches'⟩ := h.entry b hb old hold
    obtain rfl := hexecutes.memory_eq hexecutes' hacyclic
    rw [hmatches'.unique hmatches, Store.join_self]
  cases hrenewal with
  | first hold => rfl
  | plain hold hne hheader => exact absurd (hsame _ hold) hne
  | counted hold hne hheader hcap => exact absurd (hsame _ hold) hne
  | widened hold hne hheader hcap => exact absurd (hsame _ hold) hne

theorem step (h : Exact settings p) (hg : g.Determined settings)
    (hnarrow : settings.branchNarrowing = true) (hacyclic : g.function.Acyclic)
    (hstep : Stepped settings p q) : Exact settings q := by
  cases hstep with
  | idle hpending hsettled => exact ⟨h.entry, h.exit⟩
  | @run place pending b incoming entry r hpending hplace hincoming hrenewal hmem hentry =>
    have hb := Flow.mem_blocks_of_mem_order hmem
    obtain ⟨m, hexecutes, hmatches⟩ := h.exit.incomingStore? hg hnarrow hacyclic hb hincoming
    have hawaiting : Exact settings (p.awaiting pending) := ⟨h.entry, h.exit⟩
    obtain rfl := hawaiting.entry_eq_incoming hacyclic hb hexecutes hmatches hrenewal
    obtain ⟨m', hexecutes', hmatches'⟩ := hexecutes.exists_end hg hmatches
    constructor
    · intro c hc s hs
      rw [getElem?_entries_run, hrenewal.entries_eq] at hs
      split at hs
      · rename_i hid
        obtain rfl := g.wellFormed.eq_of_id_eq hb hc hid
        exact Option.some.inj hs ▸ ⟨m, hexecutes, hmatches⟩
      · exact h.entry c hc s hs
    · intro c hc s hs
      rw [getElem?_exits_run, hrenewal.exits_eq] at hs
      split at hs
      · rename_i hid
        obtain rfl := g.wellFormed.eq_of_id_eq hb hc hid
        exact Option.some.inj hs ▸ ⟨m', hexecutes', hmatches'⟩
      · exact h.exit c hc s hs

theorem finish (hg : g.Determined settings) (hnarrow : settings.branchNarrowing = true)
    (hacyclic : g.function.Acyclic) : Exact settings ((Progress.start g).finish settings) :=
  finish_induction (fun _ _ h hstep => h.step hg hnarrow hacyclic hstep) (start g settings)

end Exact

end Progress

/-! ## The solution -/

namespace Flow

section

variable {g : Flow} {settings : Settings} {b : Block} {entry : Store} {m : Memory} {c : Config}
  (hg : g.Determined settings) (hnarrow : settings.branchNarrowing = true)
  (hacyclic : g.function.Acyclic)
include hg hnarrow hacyclic

theorem Executes.entry_matches (h : g.Executes settings ⟨b, b.located, m⟩)
    (hentry : (g.propagate settings).entries[b.id]? = some entry) : entry.Matches m := by
  obtain ⟨hb, -⟩ := Function.mem_blocks_of_block? h.reaches.block.1
  obtain ⟨m', h', hmatches⟩ :=
    (Progress.Exact.finish hg hnarrow hacyclic).entry b hb entry hentry
  obtain rfl := h.memory_eq h' hacyclic
  exact hmatches

/-- The solution follows the run with stores that match. -/
theorem Executes.exists_follows (h : g.Executes settings c) :
    ∃ entry s, g.Follows settings c entry s ∧ s.Matches c.memory := by
  obtain ⟨b₀, hb₀, hrun⟩ := h
  induction hrun with
  | refl =>
    have hstart : g.Executes settings ⟨b₀, b₀.located, fun _ => none⟩ :=
      ⟨b₀, hb₀, Relation.ReflTransGen.refl⟩
    have hstarts : g.Starts ⟨b₀, b₀.located, fun _ => none⟩ := ⟨hb₀, rfl, fun _ _ => rfl⟩
    obtain ⟨entry, hfollows⟩ := Follows.start hstarts
    exact ⟨entry, entry, hfollows, hstart.entry_matches hg hnarrow hacyclic hfollows.entry_eq⟩
  | @tail c₁ c₂ hrun hstep ih =>
    obtain ⟨entry, s, hfollows, hmatches⟩ := ih
    have hnext : g.Executes settings c₂ := ⟨b₀, hb₀, hrun.tail hstep⟩
    obtain ⟨b, rest, m⟩ := c₁
    cases rest with
    | cons p rest =>
      obtain ⟨m', hm', rfl⟩ := Option.map_eq_some_iff.mp hstep
      exact ⟨entry, _, hfollows.statement (Statement.runs_of_determined? hm'),
        Statement.matches_after hmatches hm'⟩
    | nil =>
      obtain ⟨⟨target, kind⟩, hedge, hstep⟩ := Option.bind_eq_some_iff.mp hstep
      obtain ⟨b', hb', hstep⟩ := Option.bind_eq_some_iff.mp hstep
      obtain rfl := Option.some.inj hstep
      obtain ⟨entry', hfollows'⟩ := hfollows.edge (Terminator.takes_of_determined? hedge) hb'
      exact ⟨entry', entry', hfollows',
        hnext.entry_matches hg hnarrow hacyclic hfollows'.entry_eq⟩

end

/-- **Determined runs are found exactly.** Let the run of a function without loops be determined,
and let branches narrow. Then the blocks that are reached are those that the run comes to; every
store at the start or the end of a block tells exactly what the run holds there; and an access that
the run makes is judged, under every policy, to be in bounds if its index is one of the buffer's and
to be out of bounds if it is not. -/
theorem determined_exact {g : Flow} {settings : Settings} (hg : g.Determined settings)
    (hnarrow : settings.branchNarrowing = true) (hacyclic : g.function.Acyclic) :
    let r := g.propagate settings
    (∀ id, id ∈ r.entries ↔ ∃ c, g.Executes settings c ∧ c.block.id = id) ∧
      (∀ b ∈ g.function.blocks, ∀ s, r.entries[b.id]? = some s →
        ∃ m, g.Executes settings ⟨b, b.located, m⟩ ∧ s.Matches m) ∧
      (∀ b ∈ g.function.blocks, ∀ s, r.exits[b.id]? = some s →
        ∃ m, g.Executes settings ⟨b, [], m⟩ ∧ s.Matches m) ∧
      ∀ c site base index span rest, g.Executes settings c →
        c.rest = (site, .access base index span) :: rest →
        ∃ entry s a alloc size n,
          r.entries[c.block.id]? = some entry ∧
          (c.block.trace settings entry)[site.statement]? =
            some (site, .access base index span, s) ∧
          (Statement.access base index span).access? g.function.name s = some a ∧
          a ∈ r.accesses ∧
          s.Matches c.memory ∧
          c.memory base = some (.buffer alloc size) ∧
          index.determined? c.memory = some n ∧
          ∀ policy, (Checker.bounds policy).classify a =
            if 0 ≤ n.toInt ∧ n.toInt < size.toInt then .inBounds else .outOfBounds := by
  have hexact := Progress.Exact.finish hg hnarrow hacyclic
  refine ⟨fun id => ⟨?_, ?_⟩, hexact.entry, hexact.exit, ?_⟩
  · intro hid
    obtain ⟨b, hb, rfl⟩ := List.mem_map.mp (mem_orderIds_iff.mpr (reachable_of_mem_entries hid))
    obtain ⟨s, hs⟩ :=
      Option.isSome_iff_exists.mp (Std.ExtTreeMap.mem_iff_isSome_getElem?.mp hid)
    obtain ⟨m, hexecutes, -⟩ := hexact.entry b (mem_blocks_of_mem_order hb) s hs
    exact ⟨_, hexecutes, rfl⟩
  · rintro ⟨c, hc, rfl⟩
    obtain ⟨entry, s, hfollows, -⟩ := hc.exists_follows hg hnarrow hacyclic
    exact mem_entries_of_eq_some hfollows.entry_eq
  · rintro ⟨b, rest', m⟩ site base index span rest hc hrest
    obtain rfl : rest' = (site, .access base index span) :: rest := hrest
    obtain ⟨alloc, size, n, hbase, hindex⟩ := hc.exists_access hg
    obtain ⟨entry, s, hfollows, hmatches⟩ := hc.exists_follows hg hnarrow hacyclic
    obtain ⟨htrace, hmem⟩ := hfollows.recorded rfl rfl
    exact ⟨entry, s, _, alloc, size, n, hfollows.entry_eq, htrace, rfl, hmem, hmatches, hbase,
      hindex, hmatches.classify_access hbase hindex rfl⟩

/-- A function that goes one of two ways and then accesses a buffer behind its end. -/
def twoWays : Flow where
  function :=
    { name := "two_ways"
      entry := "start"
      blocks :=
        [ ⟨"start",
            [.assign "p" (.call "calloc" [.const 2, .const 3]) ⟨1, 1, 1, 16⟩,
              .assign "i" (.const 4) ⟨2, 1, 2, 5⟩],
            .branch (some ⟨"i", .lt, .const 6⟩) "inside" "outside"⟩,
          ⟨"inside",
            [.access "p" (.var "i") ⟨4, 3, 4, 6⟩,
              .assign "i" (.add (.var "i") (.const 2)) ⟨5, 3, 5, 11⟩],
            .goto "end"⟩,
          ⟨"outside", [.assign "i" (.const (-1)) ⟨7, 3, 7, 8⟩], .goto "end"⟩,
          ⟨"end", [.access "p" (.var "i") ⟨8, 1, 8, 4⟩], .exit⟩] }
  wellFormed := (Function.fault?_eq_none_iff _).mp (by decide)
  order := _
  order_eq := rfl

/-- The run comes to `p[6]`, and `p` has six elements. -/
theorem determined_exact_twoWays :
    ∃ c, twoWays.Executes default c ∧ ∃ a ∈ (twoWays.propagate default).accesses,
      ∀ policy, (Checker.bounds policy).classify a = .outOfBounds := by
  have hacyclic : twoWays.function.Acyclic := by
    refine Function.acyclic_of_rank
      (fun id => if id = "start" then 0 else if id = "end" then 2 else 1) ?_
    decide
  let memory : Memory := Memory.set
    (Memory.set (Memory.set (fun _ => none) "p" (.buffer ⟨"start", 0, ⟨1, 1, 1, 16⟩⟩ 6)) "i"
      (.number 4)) "i" (.number 6)
  have hexecutes : twoWays.Executes default
      ⟨twoWays.function.blocks[3], twoWays.function.blocks[3].located, memory⟩ := by
    refine ⟨twoWays.function.blocks[0], rfl, ?_⟩
    refine .head rfl ?_
    refine .head rfl ?_
    refine .head rfl ?_
    refine .head rfl ?_
    refine .head rfl ?_
    exact .head rfl .refl
  have hdetermined : twoWays.Determined default :=
    ⟨_, memory, hexecutes.tail rfl, rfl⟩
  obtain ⟨-, -, -, haccesses⟩ := determined_exact hdetermined rfl hacyclic
  obtain ⟨entry, s, a, alloc, size, n, -, -, -, ha, -, hbase, hindex, hverdict⟩ :=
    haccesses _ _ _ _ _ _ hexecutes rfl
  cases hbase
  cases hindex
  exact ⟨_, hexecutes, a, ha, hverdict⟩

end Flow

end BufferBounds
