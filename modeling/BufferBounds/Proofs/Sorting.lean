import BufferBounds.Finding

/-!
# Sorted findings

Findings are sorted by where they start, and those that start at the same position keep their
order. So leaving some findings out before they are sorted is the same as leaving them out
afterwards. There is one such list only (`Finding.SortedStably.unique`), so that sorting parts of a
list and then all of it is the same as sorting once.
-/

namespace BufferBounds

variable {α : Type}

/-- The front of a list that a property splits is what does not have the property. -/
theorem filter_not_append {P : α → Bool} {l₁ l₂ : List α} (h₁ : ∀ x ∈ l₁, P x = false)
    (h₂ : ∀ x ∈ l₂, P x = true) : (l₁ ++ l₂).filter (fun x => !P x) = l₁ := by
  have hfront : l₁.filter (fun x => !P x) = l₁ :=
    List.filter_eq_self.mpr fun x hx => by rw [h₁ x hx, Bool.not_false]
  have hback : l₂.filter (fun x => !P x) = [] :=
    List.filter_eq_nil_iff.mpr fun x hx => by simp [h₂ x hx]
  rw [List.filter_append, hfront, hback, List.append_nil]

/-- Stable sorting commutes with leaving elements out. -/
theorem filter_mergeSort {le : α → α → Bool} (trans : ∀ a b c, le a b → le b c → le a c)
    (total : ∀ a b, le a b || le b a) (p : α → Bool) (l : List α) :
    (l.mergeSort le).filter p = (l.filter p).mergeSort le := by
  induction l with
  | nil => rw [List.mergeSort_nil, List.filter_nil, List.mergeSort_nil]
  | cons a l ih =>
    obtain ⟨l₁, l₂, hsort, hrest, hbefore⟩ := List.mergeSort_cons trans total a l
    rw [hrest, List.filter_append] at ih
    rw [hsort, List.filter_append]
    cases hp : p a with
    | false =>
      rw [List.filter_cons_of_neg (by simp [hp]), List.filter_cons_of_neg (by simp [hp]), ih]
    | true =>
      rw [List.filter_cons_of_pos hp, List.filter_cons_of_pos hp]
      obtain ⟨m₁, m₂, hsort', hrest', hbefore'⟩ := List.mergeSort_cons trans total a (l.filter p)
      have hafter : ∀ x ∈ l₂, le a x := by
        have hsorted := List.pairwise_mergeSort trans total (a :: l)
        rw [hsort] at hsorted
        exact fun x hx => List.rel_of_pairwise_cons (List.pairwise_append.mp hsorted).2.1 hx
      have hafter' : ∀ x ∈ m₂, le a x := by
        have hsorted := List.pairwise_mergeSort trans total (a :: l.filter p)
        rw [hsort'] at hsorted
        exact fun x hx => List.rel_of_pairwise_cons (List.pairwise_append.mp hsorted).2.1 hx
      -- `a` stands in front of the first element that it may stand in front of, in both lists
      have hall : l₁.filter p ++ l₂.filter p = m₁ ++ m₂ := ih.trans hrest'
      have hl : (l₁.filter p ++ l₂.filter p).filter (fun x => !le a x) = l₁.filter p :=
        filter_not_append (fun x hx => by simpa using hbefore x (List.mem_filter.mp hx).1)
          fun x hx => hafter x (List.mem_filter.mp hx).1
      have hm : (m₁ ++ m₂).filter (fun x => !le a x) = m₁ :=
        filter_not_append (fun x hx => by simpa using hbefore' x hx) hafter'
      have hfront : l₁.filter p = m₁ := by
        rw [← hl, hall, hm]
      rw [hfront] at hall ⊢
      rw [List.append_cancel_left hall, hsort']

/-- A sorted list is determined by what it holds at each place of the order. -/
theorem eq_of_pairwise_of_filter_eq {le : α → α → Bool} (total : ∀ a b, le a b || le b a)
    {l m : List α} (hl : l.Pairwise (le · ·)) (hm : m.Pairwise (le · ·))
    (h : ∀ a, l.filter (fun x => le a x && le x a) = m.filter (fun x => le a x && le x a)) :
    l = m := by
  have hrefl : ∀ a, le a a = true := fun a => by simpa using total a a
  have hmem : ∀ {l m : List α}, (∀ a, l.filter (fun x => le a x && le x a) =
      m.filter (fun x => le a x && le x a)) → l ⊆ m := by
    intro l m h a ha
    have ha' : a ∈ l.filter fun x => le a x && le x a :=
      List.mem_filter.mpr ⟨ha, by simp [hrefl a]⟩
    rw [h a] at ha'
    exact (List.mem_filter.mp ha').1
  induction l generalizing m with
  | nil => exact (List.eq_nil_of_subset_nil (hmem fun a => (h a).symm)).symm
  | cons a l ih =>
    cases m with
    | nil => exact absurd (hmem h (List.mem_cons_self ..)) List.not_mem_nil
    | cons b m =>
      -- each head stands in the other list, so neither comes after the other
      have hab : le a b = true := by
        rcases List.mem_cons.mp (hmem (fun a => (h a).symm) (List.mem_cons_self ..)) with rfl | hb
        · exact hrefl _
        · exact List.rel_of_pairwise_cons hl hb
      have hba : le b a = true := by
        rcases List.mem_cons.mp (hmem h (List.mem_cons_self ..)) with rfl | ha
        · exact hrefl _
        · exact List.rel_of_pairwise_cons hm ha
      have hheads := h a
      rw [List.filter_cons_of_pos (by simp [hrefl a]),
        List.filter_cons_of_pos (by simp [hab, hba])] at hheads
      obtain rfl := (List.cons.inj hheads).1
      congr 1
      refine ih hl.of_cons hm.of_cons fun c => ?_
      have hc := h c
      rw [List.filter_cons, List.filter_cons] at hc
      split at hc
      · exact (List.cons.inj hc).2
      · exact hc

namespace Finding

theorem notAfter_trans (f g h : Finding) (hfg : f.notAfter g) (hgh : g.notAfter h) :
    f.notAfter h := by
  rw [notAfter] at hfg hgh ⊢
  exact Std.TransCmp.isLE_trans hfg hgh

theorem notAfter_total (f g : Finding) : f.notAfter g || g.notAfter f := by
  let byStart := compareLex (compareOn Span.startLine) (compareOn Span.startCol)
  have hswap : byStart f.span g.span = (byStart g.span f.span).swap := Std.OrientedCmp.eq_swap
  change (byStart f.span g.span).isLE || (byStart g.span f.span).isLE
  rw [hswap]
  cases byStart g.span f.span <;> rfl

theorem filter_sort (p : Finding → Bool) (findings : List Finding) :
    (sort findings).filter p = sort (findings.filter p) :=
  filter_mergeSort notAfter_trans notAfter_total p findings

/-! ## Stable sorting -/

/-- Does the finding start at this line and column? -/
def startsAt (f : Finding) (line col : UInt32) : Bool :=
  f.span.startLine = line && f.span.startCol = col

/-- The second list holds the findings of the first by the line and column they start at, and those
that start at the same position in the order they have there. -/
structure SortedStably (findings sorted : List Finding) : Prop where
  /-- nothing is lost, repeated or added -/
  perm : sorted.Perm findings
  /-- an earlier line comes first, and in a line an earlier column -/
  ascending : sorted.Pairwise fun f g =>
    f.span.startLine < g.span.startLine ∨
      f.span.startLine = g.span.startLine ∧ f.span.startCol ≤ g.span.startCol
  /-- at every position the order is the old one -/
  ties : ∀ line col, sorted.filter (·.startsAt line col) = findings.filter (·.startsAt line col)

theorem notAfter_iff {f g : Finding} :
    f.notAfter g = true ↔ f.span.startLine < g.span.startLine ∨
      f.span.startLine = g.span.startLine ∧ f.span.startCol ≤ g.span.startCol := by
  have hline : compareLex (compareOn Span.startLine) (compareOn Span.startCol) f.span g.span =
      (compare f.span.startLine g.span.startLine).then
        (compare f.span.startCol g.span.startCol) := rfl
  rw [notAfter, hline, Ordering.isLE_then_iff_or, Std.compare_eq_lt, Std.isLE_compare,
    Std.LawfulEqCmp.compare_eq_iff_eq]

/-- Two findings are sorted neither way exactly if they start at the same position. -/
theorem notAfter_and_notAfter (f g : Finding) :
    (f.notAfter g && g.notAfter f) = g.startsAt f.span.startLine f.span.startCol := by
  rw [Bool.eq_iff_iff, Bool.and_eq_true, notAfter_iff, notAfter_iff, startsAt, Bool.and_eq_true,
    decide_eq_true_eq, decide_eq_true_eq]
  grind

theorem SortedStably.unique {findings l m : List Finding} (hl : SortedStably findings l)
    (hm : SortedStably findings m) : l = m := by
  refine eq_of_pairwise_of_filter_eq notAfter_total (hl.ascending.imp notAfter_iff.mpr)
    (hm.ascending.imp notAfter_iff.mpr) fun f => ?_
  simp only [notAfter_and_notAfter]
  rw [hl.ties, hm.ties]

/-- Sorting leaves alone what starts at the same position. -/
theorem filter_startsAt_sort (findings : List Finding) (line col : UInt32) :
    (sort findings).filter (·.startsAt line col) = findings.filter (·.startsAt line col) := by
  rw [filter_sort]
  refine List.mergeSort_of_pairwise (List.pairwise_of_forall_mem_list fun f hf g hg => ?_)
  have hf' := (List.mem_filter.mp hf).2
  have hg' := (List.mem_filter.mp hg).2
  simp only [startsAt, Bool.and_eq_true, decide_eq_true_eq] at hf' hg'
  rw [notAfter_iff, hf'.1, hf'.2, hg'.1, hg'.2]
  exact Or.inr ⟨rfl, UInt32.le_refl _⟩

/-- A list that holds the same findings, and at every position in the same order, may be sorted
instead. -/
theorem sortedStably_sort {findings l : List Finding} (hperm : l.Perm findings)
    (hties : ∀ line col,
      l.filter (·.startsAt line col) = findings.filter (·.startsAt line col)) :
    SortedStably findings (sort l) where
  perm := (List.mergeSort_perm l notAfter).trans hperm
  ascending := (List.pairwise_mergeSort notAfter_trans notAfter_total l).imp notAfter_iff.mp
  ties line col := (filter_startsAt_sort l line col).trans (hties line col)

/-- Sorting parts and then all of them is sorting once. -/
theorem sortedStably_sort_flatMap {α : Type} (parts : List α) (findings : α → List Finding) :
    SortedStably (parts.flatMap findings) (sort (parts.flatMap fun a => sort (findings a))) := by
  refine sortedStably_sort ?_ fun line col => ?_
  · induction parts with
    | nil => exact .refl _
    | cons a parts ih =>
      rw [List.flatMap_cons, List.flatMap_cons]
      exact (List.mergeSort_perm (findings a) notAfter).append ih
  · rw [List.filter_flatMap, List.filter_flatMap]
    simp only [filter_startsAt_sort]

/-- Sorting two lists and then both together is sorting once. -/
theorem sort_append (l m : List Finding) : sort (l ++ m) = sort (sort l ++ sort m) := by
  have hperm : (sort l ++ sort m).Perm (l ++ m) :=
    (List.mergeSort_perm l notAfter).append (List.mergeSort_perm m notAfter)
  refine (sortedStably_sort (.refl _) fun _ _ => rfl).unique (sortedStably_sort hperm ?_)
  intro line col
  rw [List.filter_append, List.filter_append, filter_startsAt_sort, filter_startsAt_sort]

end Finding

end BufferBounds
