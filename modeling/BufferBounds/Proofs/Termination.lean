import BufferBounds.Proofs.Visits
import Mathlib.Data.Finset.Card

/-!
# How long propagation takes

The propagation ends after finitely many steps. On the way the store at the start of a loop changes
only so often: as many times as the settings allow, and then, as every further change widens, twice
for each variable that is assigned. The invariant `Metered` keeps the account for each loop: the
changes past the limit have been paid for by the height that its store has lost.
-/

namespace BufferBounds

/-! ## Distinct variables -/

theorem nodup_eraseDups (l : List String) : l.eraseDups.Nodup := by
  match l with
  | [] => exact List.nodup_nil
  | x :: l =>
    have hlt : (l.filter fun y => !y == x).length < (x :: l).length :=
      Nat.lt_succ_of_le (List.length_filter_le ..)
    rw [List.eraseDups_cons, List.nodup_cons]
    refine ⟨?_, nodup_eraseDups _⟩
    rw [List.mem_eraseDups, List.mem_filter]
    simp
termination_by l.length
decreasing_by exact hlt

/-- A flow graph lists each variable that its reachable blocks assign once. -/
theorem Flow.length_assigned (g : Flow) :
    g.assigned.length = (g.order.flatMap Block.targets).toFinset.card := by
  rw [assigned, ← List.toFinset_card_of_nodup (nodup_eraseDups _)]
  refine congrArg Finset.card (Finset.ext fun var => ?_)
  rw [List.mem_toFinset, List.mem_toFinset, List.mem_eraseDups]

namespace Progress

variable {g : Flow} {settings : Settings} {p q : Progress g} {id : String}

/-! ## Changes -/

/-- Does the entry store of the block change from `p` to `q`? To get a first one is no change. -/
def entryChanges (p q : Progress g) (id : String) : Bool :=
  match p.entries[id]? with
  | some old => decide (q.entries[id]? ≠ some old)
  | none => false

/-- How often the entry store of a block changes in the first `n` steps from `p`. -/
def countChanges (settings : Settings) (p : Progress g) (id : String) (n : Nat) : Nat :=
  (List.range n).countP fun k =>
    (p.advance settings k).entryChanges (p.advance settings (k + 1)) id

theorem countChanges_succ (p : Progress g) (n : Nat) :
    p.countChanges settings id (n + 1) = p.countChanges settings id n +
      if (p.advance settings n).entryChanges (p.advance settings (n + 1)) id then 1 else 0 := by
  rw [countChanges, List.range_succ, List.countP_append, List.countP_singleton]
  rfl

theorem entryChanges_self (p : Progress g) : p.entryChanges p id = false := by
  rw [entryChanges]
  split
  · rename_i old hold
    simp [hold]
  · rfl

theorem entryChanges_run {b : Block} {hb : b ∈ g.order} {entry : Store}
    {hentry : entry.Within g.assigned} (hentries : q.entries = p.entries) (hne : b.id ≠ id) :
    p.entryChanges (q.run settings b hb entry hentry) id = false := by
  rw [entryChanges]
  split
  · rename_i old hold
    rw [getElem?_entries_run, if_neg hne, hentries, hold]
    simp
  · rfl

/-! ## The account of a loop -/

/-- The changes past the limit and the height of the store together do not exceed the greatest
height. -/
def Metered (settings : Settings) (p : Progress g) (id : String) : Prop :=
  match p.entries[id]? with
  | none => p.changes.getD id 0 = 0
  | some s =>
    (p.changes.getD id 0 - settings.maxFixpointIterations.toNat) + s.height g.assigned ≤
      2 * g.assigned.length

theorem metered_start (g : Flow) (settings : Settings) : Metered settings (start g) id := by
  simp [Metered, start]

/-- What holds of the count and the store at the start of a loop after a visit there. -/
theorem Renewal.metered {b : Block} {incoming entry : Store}
    (h : Renewal settings p b incoming entry q) (hincoming : incoming.Within g.assigned)
    (hheader : g.isLoopHeader b.id) (hp : Metered settings p b.id) :
    (q.changes.getD b.id 0 - settings.maxFixpointIterations.toNat) + entry.height g.assigned ≤
      2 * g.assigned.length := by
  have hheight := entry.height_le g.assigned
  rw [Metered] at hp
  cases h with
  | first hold =>
    simp only [hold] at hp
    omega
  | plain hold hne hplain => exact absurd hheader hplain
  | counted hold hne _ hcap =>
    rw [changes_count_self]
    omega
  | widened hold hne _ hcap =>
    -- the change is one more past the limit, but the store is lower
    have hlt := Store.height_widen_join_lt hincoming hne
    have hcount : ((p.count b.id).widen b.id).changes.getD b.id 0 = p.changes.getD b.id 0 + 1 :=
      changes_count_self p b.id
    simp only [hold] at hp
    rw [hcount]
    omega

theorem Renewal.changes_of_ne {b : Block} {incoming entry : Store}
    (h : Renewal settings p b incoming entry q) (hne : b.id ≠ id) :
    q.changes.getD id 0 = p.changes.getD id 0 := by
  have hcount : (p.count b.id).changes.getD id 0 = p.changes.getD id 0 := by
    rw [count, Std.ExtTreeMap.getD_insert]
    simp [hne]
  cases h with
  | first hold => rfl
  | plain hold hdiff hheader => rfl
  | counted hold hdiff hheader hcap => exact hcount
  | widened hold hdiff hheader hcap => exact hcount

/-- A visit at the start of a loop counts every change. -/
theorem Renewal.changes_self {b : Block} {incoming entry : Store}
    (h : Renewal settings p b incoming entry q) (hheader : g.isLoopHeader b.id) :
    q.changes.getD b.id 0 = p.changes.getD b.id 0 + if p.entries[b.id]?.isSome then 1 else 0 := by
  cases h with
  | first hold => simp [hold]
  | plain hold hne hplain => exact absurd hheader hplain
  | counted hold hne _ hcap =>
    rw [changes_count_self, hold]
    rfl
  | widened hold hne _ hcap =>
    rw [hold]
    exact changes_count_self p b.id

theorem Metered.step (h : Metered settings p id) (hheader : g.isLoopHeader id)
    (hstep : Stepped settings p q) : Metered settings q id := by
  cases hstep with
  | idle hpending hsettled => exact h
  | @run place pending b incoming entry r hpending hplace hincoming hrenewal hmem hentry =>
    rw [Metered, getElem?_entries_run, changes_run]
    by_cases hid : b.id = id
    · subst hid
      rw [if_pos rfl]
      exact hrenewal.metered (Flow.within_incomingStore? p.within_exits hincoming) hheader h
    · rw [if_neg hid, hrenewal.entries_eq, hrenewal.changes_of_ne hid]
      exact h

/-- The count of a loop rises with every change of its entry store. -/
theorem Stepped.changes_le (hstep : Stepped settings p q) (hheader : g.isLoopHeader id) :
    (p.changes.getD id 0 + if p.entryChanges q id then 1 else 0) ≤ q.changes.getD id 0 := by
  cases hstep with
  | @idle place pending hpending hsettled =>
    have hsame : p.entryChanges (p.awaiting pending) id = false := p.entryChanges_self
    rw [hsame]
    exact Nat.le_refl _
  | @run place pending b incoming entry r hpending hplace hincoming hrenewal hmem hentry =>
    rw [changes_run]
    by_cases hid : b.id = id
    · subst hid
      rw [hrenewal.changes_self hheader]
      refine Nat.add_le_add_left ?_ _
      cases hold : p.entries[b.id]? with
      | none =>
        have hfirst : p.entryChanges (r.run settings b hmem entry hentry) b.id = false := by
          rw [entryChanges, hold]
        rw [hfirst]
        exact Nat.zero_le _
      | some old =>
        have hsome : ((p.awaiting pending).entries[b.id]?).isSome := by
          rw [awaiting, hold]
          rfl
        rw [if_pos hsome]
        split
        · exact Nat.le_refl 1
        · exact Nat.zero_le 1
    · have hentries : r.entries = p.entries := hrenewal.entries_eq
      have hchanges : r.changes.getD id 0 = p.changes.getD id 0 := hrenewal.changes_of_ne hid
      rw [entryChanges_run hentries hid, hchanges]
      exact Nat.le_refl _

/-! ## Widened blocks -/

/-- Only blocks where a loop starts are noted as widened, each once. -/
def WidenedLoops (p : Progress g) : Prop :=
  p.widened.Nodup ∧ ∀ id ∈ p.widened, g.isLoopHeader id = true

theorem WidenedLoops.widen (h : WidenedLoops p) (hheader : g.isLoopHeader id) :
    WidenedLoops (p.widen id) := by
  rw [WidenedLoops, Progress.widen]
  simp only
  split
  · exact h
  · rename_i hnew
    refine ⟨List.nodup_append.mpr ⟨h.1, List.nodup_singleton id, ?_⟩, ?_⟩
    · rintro x hx y hy rfl
      rw [List.mem_singleton.mp hy] at hx
      exact hnew hx
    · intro x hx
      rcases List.mem_append.mp hx with hx | hx
      · exact h.2 x hx
      · rw [List.mem_singleton.mp hx]
        exact hheader

theorem WidenedLoops.step (h : WidenedLoops p) (hstep : Stepped settings p q) :
    WidenedLoops q := by
  cases hstep with
  | idle hpending hsettled => exact h
  | run hpending hplace hincoming hrenewal hmem hentry =>
    rw [WidenedLoops, widened_run]
    cases hrenewal with
    | first hold => exact h
    | plain hold hne hheader => exact h
    | counted hold hne hheader hcap => exact h
    | widened hold hne hheader hcap =>
      exact WidenedLoops.widen (p := Progress.count _ _) h hheader

/-! ## Whole runs -/

theorem metered_advance (g : Flow) (settings : Settings) (hheader : g.isLoopHeader id) (n : Nat) :
    Metered settings ((start g).advance settings n) id :=
  advance_induction (motive := fun p => Metered settings p id)
    (fun _ _ h hstep => h.step hheader hstep) n _ (metered_start g settings)

theorem widenedLoops_advance (g : Flow) (settings : Settings) (n : Nat) :
    WidenedLoops ((start g).advance settings n) :=
  advance_induction (fun _ _ h hstep => h.step hstep) n _ ⟨List.nodup_nil, nofun⟩

/-- The count of a loop is at least the number of changes so far. -/
theorem countChanges_le_changes (p : Progress g) (settings : Settings)
    (hheader : g.isLoopHeader id) (n : Nat) :
    p.countChanges settings id n ≤ (p.advance settings n).changes.getD id 0 := by
  induction n with
  | zero => exact Nat.zero_le _
  | succ n ih =>
    rw [countChanges_succ]
    rcases p.stepped_advance settings n with hstep | heq
    · exact Nat.le_trans (Nat.add_le_add_right ih _) (hstep.changes_le hheader)
    · rw [heq, entryChanges_self]
      exact ih

/-- How often the entry store of a loop can change. -/
theorem countChanges_le (g : Flow) (settings : Settings) (hheader : g.isLoopHeader id) (n : Nat) :
    (start g).countChanges settings id n ≤
      settings.maxFixpointIterations.toNat + 2 * g.assigned.length := by
  have hcount := (start g).countChanges_le_changes settings hheader n
  have hmetered := metered_advance g settings hheader n
  rw [Metered] at hmetered
  split at hmetered
  · omega
  · omega

end Progress

/-- **Propagation terminates**: after some number of steps no place is pending, and the solution is
made of the stores found until then. In any number of steps the entry store of a loop changes only
as often as the settings allow and twice more for each variable that is assigned in a reachable
block. Only blocks where a loop starts are ever noted as widened, and each is noted once. -/
theorem Flow.propagation_terminates (g : Flow) (settings : Settings) :
    (∃ n, ((Progress.start g).advance settings n).pending = [] ∧
        (∀ k < n, ((Progress.start g).advance settings k).pending ≠ []) ∧
        (Progress.start g).finish settings = (Progress.start g).advance settings n) ∧
      (∀ id, g.isLoopHeader id = true → ∀ n,
        (Progress.start g).countChanges settings id n ≤
          settings.maxFixpointIterations.toNat +
            2 * (g.order.flatMap Block.targets).toFinset.card) ∧
      (∀ n, ∀ id ∈ ((Progress.start g).advance settings n).widened, g.isLoopHeader id = true) ∧
      (g.propagate settings).widened.Nodup ∧
      ∀ id ∈ (g.propagate settings).widened, g.isLoopHeader id = true := by
  obtain ⟨n, hfinish, hnil, hpos⟩ := (Progress.start g).exists_finish_eq_advance settings
  have hwidened : (g.propagate settings).widened =
      ((Progress.start g).advance settings n).widened := by
    rw [← hfinish, propagate]
  refine ⟨⟨n, hnil, hpos, hfinish⟩, ?_, ?_, ?_⟩
  · intro id hheader k
    rw [← g.length_assigned]
    exact Progress.countChanges_le g settings hheader k
  · intro k
    exact (Progress.widenedLoops_advance g settings k).2
  · rw [hwidened]
    exact Progress.widenedLoops_advance g settings n

end BufferBounds
