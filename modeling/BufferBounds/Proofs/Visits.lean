import BufferBounds.Propagation
import BufferBounds.Proofs.Reachability

/-!
# Visits

What a step of the propagation can do, said once for all that is proved of it: `Stepped` has one
constructor for a visit that is given up and one for a visit that runs its block, and `Renewal` has
one for each way to come to the store that the block is run from. `advance` takes a number of steps,
and the propagation ends where some number of steps from the start ends.
-/

namespace BufferBounds

/-! ## Pending places -/

theorem mem_enqueue {place x : Nat} {places : List Nat} :
    x ∈ enqueue place places ↔ x = place ∨ x ∈ places := by
  induction places with
  | nil => simp [enqueue]
  | cons first rest ih =>
    rw [enqueue]
    split
    · exact List.mem_cons
    · split
      · rename_i heq
        subst heq
        simp
      · rw [List.mem_cons, List.mem_cons, ih]
        exact or_left_comm

theorem mem_foldl_enqueue {new places : List Nat} {x : Nat} :
    x ∈ new.foldl (fun pending place => enqueue place pending) places ↔ x ∈ new ∨ x ∈ places := by
  induction new generalizing places with
  | nil => simp
  | cons place new ih =>
    rw [List.foldl_cons, ih, mem_enqueue, List.mem_cons]
    exact or_left_comm.trans or_assoc.symm

theorem Flow.mem_targetPlaces {g : Flow} {b c : Block} {place : Nat}
    (hc : g.order[place]? = some c) (ht : c.id ∈ b.terminator.targets) :
    place ∈ g.targetPlaces b :=
  List.mem_filterMap.mpr
    ⟨c.id, ht, (position?_eq_some_iff (List.mem_of_getElem? hc)).mpr hc⟩

namespace Progress

variable {g : Flow} {settings : Settings} {p q : Progress g}

/-! ## One step -/

/-- The progress with these places still to be visited. -/
def awaiting (p : Progress g) (pending : List Nat) : Progress g := { p with pending }

/-- The store that a visit of `b` runs the block from, and the progress it has taken note in. -/
inductive Renewal (settings : Settings) (p : Progress g) (b : Block) (incoming : Store) :
    Store → Progress g → Prop where
  /-- the first visit takes the store that arrives -/
  | first (hold : p.entries[b.id]? = none) : Renewal settings p b incoming incoming p
  /-- where no loop starts, the store that arrives is joined in -/
  | plain {old : Store} (hold : p.entries[b.id]? = some old) (hne : old.join incoming ≠ old)
      (hheader : ¬ g.isLoopHeader b.id) :
      Renewal settings p b incoming (old.join incoming) p
  /-- where a loop starts the change is counted -/
  | counted {old : Store} (hold : p.entries[b.id]? = some old) (hne : old.join incoming ≠ old)
      (hheader : g.isLoopHeader b.id)
      (hcap : p.changes.getD b.id 0 + 1 ≤ settings.maxFixpointIterations.toNat) :
      Renewal settings p b incoming (old.join incoming) (p.count b.id)
  /-- after too many changes what still changes is widened -/
  | widened {old : Store} (hold : p.entries[b.id]? = some old) (hne : old.join incoming ≠ old)
      (hheader : g.isLoopHeader b.id)
      (hcap : settings.maxFixpointIterations.toNat < p.changes.getD b.id 0 + 1) :
      Renewal settings p b incoming ((old.join incoming).widen (old.changed (old.join incoming)))
        ((p.count b.id).widen b.id)

/-- One step leads from `p` to another progress. -/
inductive Stepped (settings : Settings) (p : Progress g) : Progress g → Prop where
  /-- a visit that finds nothing new is given up -/
  | idle {place : Nat} {pending : List Nat} (hpending : p.pending = place :: pending)
      (hsettled : ∀ b incoming, g.order[place]? = some b →
        g.incomingStore? settings p.exits b.id = some incoming →
        ∃ old, p.entries[b.id]? = some old ∧ old.join incoming = old) :
      Stepped settings p (p.awaiting pending)
  /-- any other visit runs its block -/
  | run {place : Nat} {pending : List Nat} {b : Block} {incoming entry : Store} {q : Progress g}
      (hpending : p.pending = place :: pending) (hplace : g.order[place]? = some b)
      (hincoming : g.incomingStore? settings p.exits b.id = some incoming)
      (hrenewal : Renewal settings (p.awaiting pending) b incoming entry q)
      (hmem : b ∈ g.order) (hentry : entry.Within g.assigned) :
      Stepped settings p (q.run settings b hmem entry hentry)

theorem visit_cases (p : Progress g) (settings : Settings) {b : Block} (hb : b ∈ g.order)
    {incoming : Store} (hincoming : incoming.Within g.assigned) :
    (p.visit settings b hb incoming hincoming = p ∧
      ∃ old, p.entries[b.id]? = some old ∧ old.join incoming = old) ∨
    ∃ entry q, ∃ hentry : entry.Within g.assigned, Renewal settings p b incoming entry q ∧
      p.visit settings b hb incoming hincoming = q.run settings b hb entry hentry := by
  rw [visit]
  split
  · rename_i hold
    exact Or.inr ⟨incoming, p, hincoming, .first hold, rfl⟩
  · rename_i old hold
    have hjoined := (p.within_entries b.id old hold).join hincoming
    simp only
    split
    · rename_i heq
      exact Or.inl ⟨rfl, old, hold, heq⟩
    · rename_i hne
      split
      · rename_i hheader
        rw [changes_count_self]
        split
        · rename_i hcap
          exact Or.inr ⟨_, _, hjoined.widen _, .widened hold hne hheader hcap, rfl⟩
        · rename_i hcap
          exact Or.inr ⟨_, _, hjoined, .counted hold hne hheader (Nat.not_lt.mp hcap), rfl⟩
      · rename_i hheader
        exact Or.inr ⟨_, _, hjoined, .plain hold hne hheader, rfl⟩

theorem stepped_of_step? (h : p.step? settings = some q) : Stepped settings p q := by
  rw [step?] at h
  split at h
  · cases h
  · rename_i place pending hpending
    simp only at h
    split at h
    · rename_i hnone
      obtain rfl := Option.some.inj h
      refine .idle hpending fun b incoming hb => ?_
      rw [hnone] at hb
      cases hb
    · rename_i b hb
      split at h
      · rename_i hnone
        obtain rfl := Option.some.inj h
        refine .idle hpending fun c incoming hc hincoming => ?_
        obtain rfl := Option.some.inj (hb.symm.trans hc)
        rw [hnone] at hincoming
        cases hincoming
      · rename_i incoming hincoming
        obtain rfl := Option.some.inj h
        have hwithin := Flow.within_incomingStore? p.within_exits hincoming
        rcases visit_cases (p.awaiting pending) settings (List.mem_of_getElem? hb) hwithin with
          ⟨heq, hold⟩ | ⟨entry, q, hentry, hrenewal, heq⟩
        · -- the visit has left all as it was
          refine heq ▸ .idle hpending fun c incoming' hc hincoming' => ?_
          obtain rfl := Option.some.inj (hb.symm.trans hc)
          obtain rfl := Option.some.inj (hincoming.symm.trans hincoming')
          exact hold
        · exact heq ▸ .run hpending hb hincoming hrenewal _ hentry

theorem step?_eq_none_iff : p.step? settings = none ↔ p.pending = [] := by
  rw [step?]
  split
  · rename_i h
    exact ⟨fun _ => h, fun _ => rfl⟩
  · rename_i h
    constructor
    · intro hnone
      simp only at hnone
      split at hnone
      · cases hnone
      · split at hnone
        · cases hnone
        · cases hnone
    · intro hnil
      rw [h] at hnil
      cases hnil

/-! ## What a visit changes -/

section Run

variable {b : Block} {hb : b ∈ g.order} {entry : Store} {hentry : entry.Within g.assigned}

theorem getElem?_entries_run (id : String) :
    (p.run settings b hb entry hentry).entries[id]? =
      if b.id = id then some entry else p.entries[id]? := by
  rw [run, Std.ExtTreeMap.getElem?_insert]
  simp only [Std.LawfulEqCmp.compare_eq_iff_eq]

theorem getElem?_exits_run (id : String) :
    (p.run settings b hb entry hentry).exits[id]? =
      if b.id = id then some (b.transfer settings entry) else p.exits[id]? := by
  rw [run, Std.ExtTreeMap.getElem?_insert]
  simp only [Std.LawfulEqCmp.compare_eq_iff_eq]

theorem mem_entries_run {id : String} :
    id ∈ (p.run settings b hb entry hentry).entries ↔ b.id = id ∨ id ∈ p.entries := by
  rw [run, Std.ExtTreeMap.mem_insert, Std.LawfulEqCmp.compare_eq_iff_eq]

theorem mem_exits_run {id : String} :
    id ∈ (p.run settings b hb entry hentry).exits ↔ b.id = id ∨ id ∈ p.exits := by
  rw [run, Std.ExtTreeMap.mem_insert, Std.LawfulEqCmp.compare_eq_iff_eq]

theorem changes_run : (p.run settings b hb entry hentry).changes = p.changes := rfl

theorem widened_run : (p.run settings b hb entry hentry).widened = p.widened := rfl

/-- The places to be visited stay so, and a new exit store adds those that the block leads to. -/
theorem mem_pending_run {place : Nat} :
    place ∈ (p.run settings b hb entry hentry).pending ↔
      place ∈ p.pending ∨
        (p.exits[b.id]? ≠ some (b.transfer settings entry) ∧ place ∈ g.targetPlaces b) := by
  rw [run]
  simp only
  split
  · rename_i heq
    simp [heq]
  · rename_i hne
    rw [mem_foldl_enqueue]
    simp [hne, or_comm]

end Run

namespace Renewal

variable {b : Block} {incoming entry : Store}

theorem entries_eq (h : Renewal settings p b incoming entry q) : q.entries = p.entries := by
  cases h <;> rfl

theorem exits_eq (h : Renewal settings p b incoming entry q) : q.exits = p.exits := by
  cases h <;> rfl

theorem pending_eq (h : Renewal settings p b incoming entry q) : q.pending = p.pending := by
  cases h <;> rfl

end Renewal

/-! ## Many steps -/

/-- The progress after this many steps, or where no further step is possible. -/
def advance (settings : Settings) : Nat → Progress g → Progress g
  | 0, p => p
  | n + 1, p =>
    match p.step? settings with
    | none => p
    | some q => q.advance settings n

/-- What every step keeps, any number of steps keeps. -/
theorem advance_induction {motive : Progress g → Prop}
    (hstep : ∀ p q : Progress g, motive p → Stepped settings p q → motive q) (n : Nat)
    (p : Progress g) (hp : motive p) : motive (p.advance settings n) := by
  induction n generalizing p with
  | zero => exact hp
  | succ n ih =>
    rw [advance]
    split
    · exact hp
    · rename_i q hq
      exact ih q (hstep p q hp (stepped_of_step? hq))

/-- One step more is one step from where the others lead. -/
theorem advance_succ (p : Progress g) (n : Nat) :
    p.advance settings (n + 1) =
      ((p.advance settings n).step? settings).getD (p.advance settings n) := by
  induction n generalizing p with
  | zero =>
    rw [advance, advance]
    split
    · rename_i h
      rw [h]
      rfl
    · rename_i q h
      rw [h]
      rfl
  | succ n ih =>
    rw [advance]
    cases h : p.step? settings with
    | none =>
      rw [advance, h]
      simp only [h, Option.getD_none]
    | some q =>
      rw [advance, h]
      exact ih q

/-- Every further step is a step, or none is possible any more. -/
theorem stepped_advance (p : Progress g) (settings : Settings) (n : Nat) :
    Stepped settings (p.advance settings n) (p.advance settings (n + 1)) ∨
      p.advance settings (n + 1) = p.advance settings n := by
  rw [advance_succ]
  cases h : (p.advance settings n).step? settings with
  | none => exact Or.inr rfl
  | some q => exact Or.inl (stepped_of_step? h)

/-- As long as a place is pending the next step is a step. -/
theorem stepped_advance_of_pending (p : Progress g) (settings : Settings) {n : Nat}
    (h : (p.advance settings n).pending ≠ []) :
    Stepped settings (p.advance settings n) (p.advance settings (n + 1)) := by
  rw [advance_succ]
  cases hstep : (p.advance settings n).step? settings with
  | none => exact absurd (step?_eq_none_iff.mp hstep) h
  | some q => exact stepped_of_step? hstep

/-- Once no place is pending nothing changes any more. -/
theorem advance_of_le {p : Progress g} {m n : Nat} (h : (p.advance settings m).pending = [])
    (hle : m ≤ n) : p.advance settings n = p.advance settings m := by
  obtain ⟨k, rfl⟩ := Nat.exists_eq_add_of_le hle
  clear hle
  induction k with
  | zero => rfl
  | succ k ih =>
    rw [← Nat.add_assoc, advance_succ, ih, step?_eq_none_iff.mpr h]
    rfl

/-- The propagation ends after finitely many steps. -/
theorem exists_finish_eq_advance (p : Progress g) (settings : Settings) :
    ∃ n, p.finish settings = p.advance settings n ∧ (p.advance settings n).pending = [] ∧
      ∀ k < n, (p.advance settings k).pending ≠ [] := by
  fun_induction finish p settings with
  | case1 p h =>
    refine ⟨0, rfl, step?_eq_none_iff.mp h, ?_⟩
    intro k hk
    exact absurd hk (Nat.not_lt_zero k)
  | case2 p q h ih =>
    obtain ⟨n, hfinish, hnil, hpos⟩ := ih
    have hadvance : ∀ k, p.advance settings (k + 1) = q.advance settings k := by
      intro k
      rw [advance, h]
    refine ⟨n + 1, by rw [hfinish, hadvance], by rw [hadvance, hnil], ?_⟩
    intro k hk
    cases k with
    | zero =>
      intro hp
      rw [advance] at hp
      rw [step?_eq_none_iff.mpr hp] at h
      cases h
    | succ k =>
      rw [hadvance]
      exact hpos k (Nat.lt_of_succ_lt_succ hk)

theorem pending_finish (p : Progress g) (settings : Settings) :
    (p.finish settings).pending = [] := by
  obtain ⟨n, hfinish, hnil, -⟩ := p.exists_finish_eq_advance settings
  rw [hfinish, hnil]

/-- What every step keeps, the propagation keeps. -/
theorem finish_induction {motive : Progress g → Prop}
    (hstep : ∀ p q : Progress g, motive p → Stepped settings p q → motive q)
    (hp : motive p) : motive (p.finish settings) := by
  obtain ⟨n, hfinish, -, -⟩ := p.exists_finish_eq_advance settings
  rw [hfinish]
  exact advance_induction hstep n p hp

end Progress

end BufferBounds
