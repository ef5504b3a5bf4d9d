import BufferBounds.Proofs.Visits

/-!
# Propagations in lockstep

Two propagations, perhaps through different flow graphs or with different settings, go in lockstep if
a relation between them is kept by every step and lets neither stop before the other. Then they end
together, and the relation holds where they end.

To compare two steps each is written as an equation first, for every way that it can take.
-/

namespace BufferBounds

namespace Progress

/-! ## Steps as equations -/

section

variable {g : Flow} {settings : Settings} {p : Progress g} {b : Block} {hb : b ∈ g.order}
  {incoming : Store} {hincoming : incoming.Within g.assigned}

theorem visit_of_eq_none (hold : p.entries[b.id]? = none) :
    p.visit settings b hb incoming hincoming = p.run settings b hb incoming hincoming := by
  rw [visit]
  split
  · rfl
  · rename_i old hold'
    rw [hold] at hold'
    cases hold'

theorem visit_of_eq_some {old : Store} (hold : p.entries[b.id]? = some old)
    (hjoined : (old.join incoming).Within g.assigned) :
    p.visit settings b hb incoming hincoming =
      if old.join incoming = old then p
      else if g.isLoopHeader b.id then
        if settings.maxFixpointIterations.toNat < p.changes.getD b.id 0 + 1 then
          ((p.count b.id).widen b.id).run settings b hb
            ((old.join incoming).widen (old.changed (old.join incoming))) (hjoined.widen _)
        else (p.count b.id).run settings b hb (old.join incoming) hjoined
      else p.run settings b hb (old.join incoming) hjoined := by
  rw [visit]
  split
  · rename_i hnone
    rw [hold] at hnone
    cases hnone
  · rename_i old' hold'
    obtain rfl := Option.some.inj (hold.symm.trans hold')
    simp only [changes_count_self]

theorem step?_of_getElem?_eq_none {place : Nat} {pending : List Nat}
    (hpending : p.pending = place :: pending) (hplace : g.order[place]? = none) :
    p.step? settings = some (p.awaiting pending) := by
  rw [step?, hpending]
  simp only
  split
  · rfl
  · rename_i b hb
    rw [hplace] at hb
    cases hb

theorem step?_of_incomingStore?_eq_none {place : Nat} {pending : List Nat}
    (hpending : p.pending = place :: pending) (hplace : g.order[place]? = some b)
    (hincoming : g.incomingStore? settings p.exits b.id = none) :
    p.step? settings = some (p.awaiting pending) := by
  rw [step?, hpending]
  simp only
  split
  · rfl
  · rename_i c hc
    obtain rfl := Option.some.inj (hplace.symm.trans hc)
    split
    · rfl
    · rename_i incoming hsome
      rw [hincoming] at hsome
      cases hsome

theorem step?_eq_visit {place : Nat} {pending : List Nat}
    (hpending : p.pending = place :: pending) (hplace : g.order[place]? = some b)
    (harrives : g.incomingStore? settings p.exits b.id = some incoming)
    (hmem : b ∈ g.order) (hwithin : incoming.Within g.assigned) :
    p.step? settings = some ((p.awaiting pending).visit settings b hmem incoming hwithin) := by
  rw [step?, hpending]
  simp only
  split
  · rename_i hnone
    rw [hplace] at hnone
    cases hnone
  · rename_i c hc
    obtain rfl := Option.some.inj (hplace.symm.trans hc)
    split
    · rename_i hnone
      rw [harrives] at hnone
      cases hnone
    · rename_i incoming' hincoming'
      obtain rfl := Option.some.inj (harrives.symm.trans hincoming')
      rfl

end

/-! ## Two propagations -/

variable {g g' : Flow} {settings settings' : Settings}

theorem finish_of_step?_eq_none {p : Progress g} (h : p.step? settings = none) :
    p.finish settings = p := by
  rw [finish]
  split
  · rfl
  · rename_i q hq
    rw [h] at hq
    cases hq

theorem finish_of_step?_eq_some {p q : Progress g} (h : p.step? settings = some q) :
    p.finish settings = q.finish settings := by
  rw [finish]
  split
  · rename_i hnone
    rw [h] at hnone
    cases hnone
  · rename_i q' hq'
    obtain rfl := Option.some.inj (h.symm.trans hq')
    rfl

/-- What holds between two propagations from step to step holds where they end. -/
theorem finish_lockstep {R : Progress g → Progress g' → Prop}
    (hstep : ∀ p p', R p p' → Option.Rel R (p.step? settings) (p'.step? settings'))
    {p : Progress g} {p' : Progress g'} (h : R p p') :
    R (p.finish settings) (p'.finish settings') := by
  fun_induction finish p settings generalizing p' with
  | case1 p hp =>
    have hrel := hstep p p' h
    rw [hp] at hrel
    cases hp' : p'.step? settings' with
    | none =>
      rw [finish_of_step?_eq_none hp']
      exact h
    | some q' =>
      rw [hp'] at hrel
      cases hrel
  | case2 p q hp ih =>
    have hrel := hstep p p' h
    rw [hp] at hrel
    cases hp' : p'.step? settings' with
    | none =>
      rw [hp'] at hrel
      cases hrel
    | some q' =>
      rw [hp'] at hrel
      rw [finish_of_step?_eq_some hp']
      cases hrel with
      | some hq => exact ih hq

/-- Settings that give the same steps give the same result. -/
theorem finish_congr (h : ∀ p : Progress g, p.step? settings = p.step? settings')
    (p : Progress g) : p.finish settings = p.finish settings' := by
  refine finish_lockstep (R := Eq) ?_ rfl
  rintro p _ rfl
  rw [h p]
  cases p.step? settings' with
  | none => exact .none
  | some q => exact .some rfl

end Progress

/-! ## Two solutions -/

section

variable {settings settings' : Settings} (h : settings.allocators = settings'.allocators)
include h

theorem Statement.allocation?_congr (site : Site) (s : Store) (statement : Statement) :
    statement.allocation? settings site s = statement.allocation? settings' site s := by
  have hnames : settings.isAllocator = settings'.isAllocator := by
    funext callee
    rw [Settings.isAllocator, Settings.isAllocator, h]
  rw [allocation?.eq_def, allocation?.eq_def, hnames]

/-- Of the settings only the allocators matter on the way through a block. -/
theorem Block.traceFrom_congr (s : Store) (l : List (Site × Statement)) :
    traceFrom settings s l = traceFrom settings' s l := by
  induction l generalizing s with
  | nil => rfl
  | cons p l ih =>
    simp only [traceFrom, ih, Statement.after, Statement.allocation?_congr h]

/-- Two propagations with the same allocators that end alike have the same solution. -/
theorem Flow.propagate_of_finish_eq {g : Flow}
    (hfinish : (Progress.start g).finish settings = (Progress.start g).finish settings') :
    g.propagate settings = g.propagate settings' := by
  rw [propagate, propagate, hfinish]
  simp only [Block.allocations, Block.accesses, Block.trace, Block.traceFrom_congr h,
    Statement.allocation?_congr h]

end

end BufferBounds
