import BufferBounds.Proofs.AssignedValues
import BufferBounds.Proofs.Records
import BufferBounds.Proofs.Visits

/-!
# Hereditary conditions

A condition on values is hereditary if the operations on values keep it. If it holds of the buffers
that are allocated too, it holds of all that propagation finds. The way there is the same for every
condition, so it is taken here once: through expressions, statements, blocks and edges, and through
the steps of the propagation. Only the buffers of blocks that are reached matter, so a condition may
speak of what is reached.
-/

namespace BufferBounds

/-- All values of the store meet the condition. -/
def Store.All (P : Value → Prop) (s : Store) : Prop := ∀ var x, s.get? var = some x → P x

/-- The operations on values keep the condition. -/
structure Value.Hereditary (P : Value → Prop) : Prop where
  /-- a value of which nothing is known meets it -/
  top : P .top
  /-- a pointer of which nothing is known meets it -/
  untracked : P (.pointer .untracked)
  /-- what may be either of two values meets it if both do -/
  join : ∀ x y, P x → P y → P (x.join y)
  /-- a number that is computed from values that meet it meets it -/
  number : ∀ (s : Store) (e : Expr), s.All P → P (.scalar (e.number s))
  /-- a number that is restricted meets it still -/
  meet? : ∀ i j k, P (.scalar i) → Interval.meet? i j = some k → P (.scalar k)

variable {P Q : Value → Prop} {settings : Settings} {s t : Store}

/-! ## Stores -/

namespace Store

theorem all_empty (P : Value → Prop) : (∅ : Store).All P := by
  intro var x hx
  rw [get?_empty] at hx
  cases hx

theorem All.mono (h : s.All P) (hPQ : ∀ x, P x → Q x) : s.All Q :=
  fun var x hx => hPQ x (h var x hx)

theorem All.bind (h : s.All P) {var : String} {x : Value} (hx : P x) : (s.bind var x).All P := by
  intro var' x' hx'
  rw [get?_bind] at hx'
  split at hx'
  · exact Option.some.inj hx' ▸ hx
  · exact h var' x' hx'

end Store

namespace Value.Hereditary

variable (hP : Hereditary P)

include hP

theorem widened {x : Value} : P x.widened := by
  cases x with
  | scalar i => exact hP.top
  | pointer p => exact hP.untracked

theorem joinStore (hs : s.All P) (ht : t.All P) : (s.join t).All P := by
  intro var z hz
  rw [Store.get?_join] at hz
  cases hx : s.get? var with
  | none =>
    rw [hx] at hz
    exact ht var z hz
  | some x =>
    rw [hx] at hz
    cases hy : t.get? var with
    | none =>
      rw [hy] at hz
      exact Option.some.inj hz ▸ hs var x hx
    | some y =>
      rw [hy] at hz
      exact Option.some.inj hz ▸ hP.join x y (hs var x hx) (ht var y hy)

theorem widenStore (hs : s.All P) (vars : List String) : (s.widen vars).All P := by
  intro var z hz
  rw [Store.get?_widen] at hz
  split at hz
  · obtain ⟨x, -, rfl⟩ := Option.map_eq_some_iff.mp hz
    exact hP.widened
  · exact hs var z hz

theorem joinAll? {ss : List Store} (h : ∀ t ∈ ss, t.All P) (hs : Store.joinAll? ss = some s) :
    s.All P := by
  cases ss with
  | nil => cases hs
  | cons t ss =>
    obtain rfl := Option.some.inj hs
    obtain ⟨ht, hss⟩ := List.forall_mem_cons.mp h
    clear h hs
    induction ss generalizing t with
    | nil => exact ht
    | cons u ss ih =>
      obtain ⟨hu, hss⟩ := List.forall_mem_cons.mp hss
      exact ih (t.join u) (hP.joinStore ht hu) hss

/-! ## Expressions, statements and edges -/

theorem value (hs : s.All P) (e : Expr) : P (e.value s) := by
  fun_induction Expr.value s e with
  | case1 name =>
    cases hx : s.get? name with
    | none => exact hP.top
    | some x => exact hs name x hx
  | case2 thenArm elseArm ihThen ihElse => exact hP.join _ _ ihThen ihElse
  | case3 e => exact hP.number s e hs

theorem assign (hs : s.All P) (target : String) (value : Expr) : (s.assign target value).All P := by
  rw [Store.assign_eq_bind, Store.stored]
  split
  · exact hs.bind hP.untracked
  · exact hs.bind (hP.value hs value)

theorem assume? (hs : s.All P) {var : String} {op : Comparison} {value : Interval}
    (h : s.assume? var op value = some t) : t.All P := by
  obtain rfl | ⟨current, allowed, i, hget, hi, rfl⟩ := Store.eq_or_eq_bind_of_assume? h
  · exact hs
  · exact hs.bind (hP.meet? current allowed i (hs var _ hget) hi)

theorem along? {b : Block} {kind : EdgeKind} (hs : s.All P)
    (h : b.along? settings kind s = some t) : t.All P := by
  rw [Block.along?.eq_def] at h
  split at h
  · split at h
    · exact hP.assume? hs h
    · exact hP.assume? hs h
    · exact Option.some.inj h ▸ hs
  · exact Option.some.inj h ▸ hs

theorem after {site : Site} {statement : Statement} (hs : s.All P)
    (hfresh : ∀ a, statement.allocation? settings site s = some a →
      P (.pointer (.fresh a.site a.size))) :
    (statement.after settings site s).All P := by
  rw [Statement.after.eq_def]
  split
  · rename_i a ha
    exact hs.bind (hfresh a ha)
  · exact hP.assign hs _ _
  · exact hs

end Value.Hereditary

/-! ## Blocks -/

/-- Every buffer that the statements allocate in a store that meets the condition meets it. -/
def Supplies (settings : Settings) (P : Value → Prop) (l : List (Site × Statement)) : Prop :=
  ∀ site statement, (site, statement) ∈ l → ∀ s : Store, s.All P →
    ∀ a, statement.allocation? settings site s = some a → P (.pointer (.fresh a.site a.size))

namespace Value.Hereditary

variable (hP : Hereditary P)

include hP

/-- Every store on the way through some statements meets the condition. -/
theorem traceFrom {l : List (Site × Statement)} (hl : Supplies settings P l) (hs : s.All P)
    {site : Site} {statement : Statement}
    (h : (site, statement, t) ∈ Block.traceFrom settings s l) : t.All P := by
  induction l generalizing s with
  | nil => cases h
  | cons p l ih =>
    rw [Block.traceFrom] at h
    rcases List.mem_cons.mp h with heq | h
    · cases heq
      exact hs
    · have hafter := hP.after hs (hl p.1 p.2 (List.mem_cons_self ..) s hs)
      exact ih (fun site statement hmem => hl site statement (List.mem_cons_of_mem _ hmem)) hafter h

theorem transfer {b : Block} (hb : Supplies settings P b.located) (hs : s.All P) :
    (b.transfer settings s).All P := by
  rw [Block.transfer]
  generalize b.located = l at hb
  induction l generalizing s with
  | nil => exact hs
  | cons p l ih =>
    have hafter := hP.after hs (hb p.1 p.2 (List.mem_cons_self ..) s hs)
    exact ih hafter fun site statement hmem => hb site statement (List.mem_cons_of_mem _ hmem)

/-- What arrives at a block meets the condition if what stands at the ends of blocks does. -/
theorem arriving {g : Flow} {exits : Table Store} {id : String}
    (h : ∀ (id : String) (s : Store), exits[id]? = some s → s.All P)
    (ht : t ∈ g.arriving settings exits id) : t.All P := by
  rcases List.mem_append.mp ht with ht | ht
  · split at ht
    · rw [List.mem_singleton.mp ht]
      exact Store.all_empty P
    · cases ht
  · obtain ⟨⟨b, kind⟩, -, ht⟩ := List.mem_filterMap.mp ht
    obtain ⟨exit, hexit, ht⟩ := Option.bind_eq_some_iff.mp ht
    exact hP.along? (h b.id exit hexit) ht

end Value.Hereditary

/-! ## Propagation -/

namespace Progress

variable {g : Flow} {p q : Progress g}

/-- All values found so far meet the condition. -/
structure All (P : Value → Prop) (p : Progress g) : Prop where
  /-- those at the start of a block -/
  entry : ∀ (id : String) (s : Store), p.entries[id]? = some s → s.All P
  /-- those at the end of a block -/
  exit : ∀ (id : String) (s : Store), p.exits[id]? = some s → s.All P

theorem Renewal.all {b : Block} {incoming entry : Store}
    (h : Renewal settings p b incoming entry q) (hP : Value.Hereditary P) (hp : p.All P)
    (hincoming : incoming.All P) : entry.All P := by
  cases h with
  | first hold => exact hincoming
  | plain hold hne hheader => exact hP.joinStore (hp.entry _ _ hold) hincoming
  | counted hold hne hheader hcap => exact hP.joinStore (hp.entry _ _ hold) hincoming
  | widened hold hne hheader hcap =>
    exact hP.widenStore (hP.joinStore (hp.entry _ _ hold) hincoming) _

namespace All

theorem start (g : Flow) (P : Value → Prop) : (Progress.start g).All P where
  entry id s h := by simp [Progress.start] at h
  exit id s h := by simp [Progress.start] at h

theorem mono (h : p.All P) (hPQ : ∀ x, P x → Q x) : p.All Q where
  entry id s hs := (h.entry id s hs).mono hPQ
  exit id s hs := (h.exit id s hs).mono hPQ

theorem incomingStore? (h : p.All P) (hP : Value.Hereditary P) {id : String} {incoming : Store}
    (hincoming : g.incomingStore? settings p.exits id = some incoming) : incoming.All P :=
  hP.joinAll? (fun _ ht => hP.arriving h.exit ht) hincoming

/-- A step keeps the condition if the blocks that have been reached then supply it. -/
theorem step (h : p.All P) (hP : Value.Hereditary P) (hstep : Stepped settings p q)
    (hblocks : ∀ b ∈ g.order, b.id ∈ q.entries → Supplies settings P b.located) : q.All P := by
  cases hstep with
  | idle hpending hsettled => exact ⟨h.entry, h.exit⟩
  | @run place pending b incoming entry r hpending hplace hincoming hrenewal hmem hentry =>
    have hall : entry.All P :=
      hrenewal.all (p := p.awaiting pending) hP ⟨h.entry, h.exit⟩ (h.incomingStore? hP hincoming)
    constructor
    · intro id s hs
      rw [getElem?_entries_run, hrenewal.entries_eq] at hs
      split at hs
      · exact Option.some.inj hs ▸ hall
      · exact h.entry id s hs
    · intro id s hs
      rw [getElem?_exits_run, hrenewal.exits_eq] at hs
      split at hs
      · have hid : b.id ∈ (r.run settings b hmem entry hentry).entries :=
          mem_entries_run.mpr (Or.inl rfl)
        exact Option.some.inj hs ▸ hP.transfer (hblocks b hmem hid) hall
      · exact h.exit id s hs

end All

end Progress

/-! ## What is seen -/

namespace Flow

variable {g : Flow}

/-- What is recorded of an access meets a condition that holds at the starts of blocks. -/
theorem all_of_mem_accesses {a : Access} (ha : a ∈ (g.propagate settings).accesses)
    (hP : Value.Hereditary P)
    (hentries : ∀ (id : String) (s : Store),
      (g.propagate settings).entries[id]? = some s → s.All P)
    (hblocks : ∀ b ∈ g.order, b.id ∈ (g.propagate settings).entries →
      Supplies settings P b.located) :
    P (.scalar a.index) ∧ ∀ p, a.pointer = some p → P (.pointer p) := by
  obtain ⟨b, hb, entry, hentry, site, index, s, htrace, hindex, hpointer⟩ :=
    exists_of_mem_accesses ha
  have hs : s.All P :=
    hP.traceFrom (hblocks b hb (Table.mem_of_eq_some hentry)) (hentries b.id entry hentry) htrace
  constructor
  · rw [hindex]
    exact hP.number s index hs
  · intro p hp
    exact hs a.base _ (Store.pointer?_eq_some_iff.mp (hpointer ▸ hp))

end Flow

end BufferBounds
