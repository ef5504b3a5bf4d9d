import BufferBounds.Proofs.Lockstep

/-!
# The limit of changes

How often the store at the start of a loop may change is asked in one place only, where a change is
counted, and the answer decides nothing but whether the store is widened. So as long as nothing is
widened a greater limit gives the same steps, and a propagation that widens nothing until its end is
the same under every greater limit.
-/

namespace BufferBounds

namespace Progress

variable {g : Flow} {settings : Settings} {p q : Progress g} {cap : UInt64}

/-! ## Widened blocks -/

/-- The blocks that were widened stay noted as such. -/
theorem Stepped.widened_prefix (h : Stepped settings p q) : p.widened <+: q.widened := by
  cases h with
  | idle hpending hsettled => exact List.prefix_refl _
  | run hpending hplace hincoming hrenewal hmem hentry =>
    rw [widened_run]
    cases hrenewal with
    | first hold => exact List.prefix_refl _
    | plain hold hne hheader => exact List.prefix_refl _
    | counted hold hne hheader hcap => exact List.prefix_refl _
    | widened hold hne hheader hcap =>
      simp only [widen]
      split
      · exact List.prefix_refl _
      · exact List.prefix_append _ _

theorem widened_prefix_finish (p : Progress g) (settings : Settings) :
    p.widened <+: (p.finish settings).widened := by
  have hstep : ∀ q r : Progress g, p.widened <+: q.widened → Stepped settings q r →
      p.widened <+: r.widened := by
    intro q r hq hstepped
    exact hq.trans hstepped.widened_prefix
  exact finish_induction hstep (List.prefix_refl _)

/-- Noting a block as widened leaves no empty list. -/
theorem widened_widen_ne_nil (p : Progress g) (id : String) : (p.widen id).widened ≠ [] := by
  simp only [widen]
  split
  · rename_i hmem
    exact List.ne_nil_of_mem hmem
  · simp

/-! ## A greater limit -/

/-- A visit that widens nothing is the same under a greater limit. -/
theorem visit_raise (hcap : settings.maxFixpointIterations ≤ cap) {b : Block} {hb : b ∈ g.order}
    {incoming : Store} {hincoming : incoming.Within g.assigned}
    (h : (p.visit settings b hb incoming hincoming).widened = []) :
    p.visit { settings with maxFixpointIterations := cap } b hb incoming hincoming =
      p.visit settings b hb incoming hincoming := by
  cases hold : p.entries[b.id]? with
  | none =>
    rw [visit_of_eq_none hold, visit_of_eq_none hold]
    rfl
  | some old =>
    have hjoined := (p.within_entries b.id old hold).join hincoming
    rw [visit_of_eq_some hold hjoined] at h ⊢
    rw [visit_of_eq_some hold hjoined]
    split
    · rfl
    · rename_i hne
      rw [if_neg hne] at h
      split
      · rename_i hheader
        rw [if_pos hheader] at h
        -- had the lesser limit been passed, a block would be noted
        have hwithin : ¬ settings.maxFixpointIterations.toNat < p.changes.getD b.id 0 + 1 := by
          intro hlt
          rw [if_pos hlt, widened_run] at h
          exact widened_widen_ne_nil _ _ h
        have hle := UInt64.le_iff_toNat_le.mp hcap
        rw [if_neg hwithin, if_neg (show ¬ cap.toNat < p.changes.getD b.id 0 + 1 by omega)]
        rfl
      · rfl

/-- A step that widens nothing is the same under a greater limit. -/
theorem step?_raise (hcap : settings.maxFixpointIterations ≤ cap)
    (h : p.step? settings = some q) (hq : q.widened = []) :
    p.step? { settings with maxFixpointIterations := cap } = some q := by
  cases hpending : p.pending with
  | nil =>
    rw [step?_eq_none_iff.mpr hpending] at h
    cases h
  | cons place pending =>
    cases hplace : g.order[place]? with
    | none =>
      rw [step?_of_getElem?_eq_none hpending hplace] at h ⊢
      exact h
    | some b =>
      -- what arrives does not depend on the limit
      have hsame : g.incomingStore? { settings with maxFixpointIterations := cap } p.exits b.id =
          g.incomingStore? settings p.exits b.id := rfl
      cases hincoming : g.incomingStore? settings p.exits b.id with
      | none =>
        rw [step?_of_incomingStore?_eq_none hpending hplace hincoming] at h
        rw [step?_of_incomingStore?_eq_none hpending hplace (hsame.trans hincoming)]
        exact h
      | some incoming =>
        have hmem := List.mem_of_getElem? hplace
        have hwithin := Flow.within_incomingStore? p.within_exits hincoming
        rw [step?_eq_visit hpending hplace hincoming hmem hwithin] at h
        rw [step?_eq_visit hpending hplace (hsame.trans hincoming) hmem hwithin]
        obtain rfl := Option.some.inj h
        rw [visit_raise hcap hq]

/-- Both are the same, and nothing is widened from there to the end. -/
def Unwidened (settings : Settings) (p p' : Progress g) : Prop :=
  p = p' ∧ (p.finish settings).widened = []

/-- A propagation that widens nothing ends in the same way under a greater limit. -/
theorem finish_raise (hcap : settings.maxFixpointIterations ≤ cap)
    (h : (p.finish settings).widened = []) :
    p.finish { settings with maxFixpointIterations := cap } = p.finish settings := by
  have hstep : ∀ p p' : Progress g, Unwidened settings p p' →
      Option.Rel (Unwidened settings) (p.step? settings)
        (p'.step? { settings with maxFixpointIterations := cap }) := by
    rintro p _ ⟨rfl, hp⟩
    cases hq : p.step? settings with
    | none =>
      rw [step?_eq_none_iff.mpr (step?_eq_none_iff.mp hq)]
      exact .none
    | some q =>
      rw [finish_of_step?_eq_some hq] at hp
      have hnil : q.widened = [] := List.prefix_nil.mp (hp ▸ q.widened_prefix_finish settings)
      rw [step?_raise hcap hq hnil]
      exact .some ⟨rfl, hp⟩
  exact (finish_lockstep hstep ⟨rfl, h⟩).1.symm

end Progress

/-! ## The solution -/

namespace Flow

/-- **A greater limit does not change what was found without widening.** Take any settings and raise
the limit of changes. If no block is widened under the lesser limit, the solution under the greater
one is the same: the same stores, found in as many runs of blocks, and the same allocations and
accesses. So if some block is widened under the greater limit still, some block is under every lesser
one. -/
theorem converged_raise {g : Flow} {settings : Settings} {cap : UInt64}
    (hcap : settings.maxFixpointIterations ≤ cap) :
    let raised := { settings with maxFixpointIterations := cap }
    ((g.propagate settings).widened = [] → g.propagate raised = g.propagate settings) ∧
      ((g.propagate raised).widened ≠ [] → (g.propagate settings).widened ≠ []) := by
  intro raised
  have hsame : (g.propagate settings).widened = [] →
      g.propagate raised = g.propagate settings := by
    intro hnil
    have hallocators : raised.allocators = settings.allocators := rfl
    exact propagate_of_finish_eq hallocators (Progress.finish_raise hcap hnil)
  refine ⟨hsame, ?_⟩
  intro hwidened hnil
  rw [hsame hnil] at hwidened
  exact hwidened hnil

/-- A loop that is gone through three times. -/
def thrice : Flow where
  function :=
    { name := "thrice"
      entry := "start"
      blocks :=
        [ ⟨"start", [.assign "i" (.const 0) ⟨1, 1, 1, 5⟩], .goto "test"⟩,
          ⟨"test", [], .branch (some ⟨"i", .lt, .const 3⟩) "body" "done"⟩,
          ⟨"body", [.assign "i" (.add (.var "i") (.const 1)) ⟨3, 3, 3, 11⟩], .goto "test"⟩,
          ⟨"done", [], .exit⟩ ] }
  wellFormed := (Function.fault?_eq_none_iff _).mp (by decide)
  order := _
  order_eq := rfl

/-- Three changes are enough to get through the loop, and two are too few. -/
theorem converged_raise_thrice :
    let limited (cap : UInt64) : Settings := { (default : Settings) with
      maxFixpointIterations := cap }
    thrice.propagate (limited 100) = thrice.propagate (limited 3) ∧
      (thrice.propagate (limited 1)).widened ≠ [] := by
  intro limited
  have hthree : (thrice.propagate (limited 3)).widened = [] := by decide +kernel
  have htwo : (thrice.propagate (limited 2)).widened ≠ [] := by decide +kernel
  have hraise : (limited 3).maxFixpointIterations ≤ 100 := by decide
  have hlower : (limited 1).maxFixpointIterations ≤ 2 := by decide
  exact ⟨(converged_raise hraise).1 hthree, (converged_raise hlower).2 htwo⟩

end Flow

end BufferBounds
