import BufferBounds.Propagation.Progress

/-!
# Why propagation ends

Every step lowers a natural number, the `measure`, so there cannot be steps without end. The
measure has two parts.

* The `potential` bounds how often the stores at the starts of loops can still change. Each change
  is counted until the limit is reached. From then on a change widens its variables, and a variable
  can be widened twice at most: to an unknown value of its kind, and once more to a value of
  unknown kind.
* Every pending place has a `weight`. It is one where a loop starts. At other places it falls by the
  factor three from each place to the next, so that it outweighs both places that a visit there
  can make pending: they are later ones, or starts of loops.

A change at the start of a loop may make places pending that weigh more than the one that was
visited, but no more than `maxGain` in all; so the potential counts for more than that.
-/

namespace BufferBounds

/-! ## Sums and threefold growth -/

/-- The sum of a quantity over a list. -/
def sumOf {α : Type} (f : α → Nat) : List α → Nat
  | [] => 0
  | x :: l => f x + sumOf f l

@[simp] theorem sumOf_nil {α : Type} (f : α → Nat) : sumOf f [] = 0 := rfl

@[simp] theorem sumOf_cons {α : Type} (f : α → Nat) (x : α) (l : List α) :
    sumOf f (x :: l) = f x + sumOf f l := rfl

theorem sumOf_congr {α : Type} {f h : α → Nat} :
    ∀ {l : List α}, (∀ x ∈ l, f x = h x) → sumOf f l = sumOf h l
  | [], _ => rfl
  | x :: l, heq => by
    have hx := heq x (List.mem_cons_self ..)
    have hl := sumOf_congr fun y hy => heq y (List.mem_cons_of_mem _ hy)
    simp only [sumOf_cons, hx, hl]

theorem sumOf_le_sumOf {α : Type} {f h : α → Nat} :
    ∀ {l : List α}, (∀ x ∈ l, f x ≤ h x) → sumOf f l ≤ sumOf h l
  | [], _ => Nat.le_refl 0
  | x :: l, hle => by
    have hx := hle x (List.mem_cons_self ..)
    have hl := sumOf_le_sumOf fun y hy => hle y (List.mem_cons_of_mem _ hy)
    simp only [sumOf_cons]
    omega

theorem sumOf_lt_sumOf {α : Type} {f h : α → Nat} {x : α} :
    ∀ {l : List α}, (∀ y ∈ l, f y ≤ h y) → x ∈ l → f x < h x → sumOf f l < sumOf h l
  | y :: l, hle, hx, hlt => by
    have hy := hle y (List.mem_cons_self ..)
    have hl := fun z hz => hle z (List.mem_cons_of_mem _ hz)
    simp only [sumOf_cons]
    rcases List.mem_cons.mp hx with rfl | hx
    · have := sumOf_le_sumOf hl
      omega
    · have := sumOf_lt_sumOf hl hx hlt
      omega

/-- One, tripled this many times. -/
def tripled : Nat → Nat
  | 0 => 1
  | n + 1 => 3 * tripled n

theorem tripled_pos (n : Nat) : 0 < tripled n := by
  induction n with
  | zero => exact Nat.zero_lt_one
  | succ n ih => exact Nat.mul_pos (by decide) ih

theorem tripled_le_tripled {m n : Nat} (h : m ≤ n) : tripled m ≤ tripled n := by
  induction h with
  | refl => exact Nat.le_refl _
  | step _ ih => exact Nat.le_trans ih (Nat.le_mul_of_pos_left _ (by decide))

/-! ## Heights of values -/

/-- How often an entry of a store can still be widened to something else. -/
def height : Option Value → Nat
  | some (.scalar .unknown) => 0
  | some (.pointer .untracked) => 1
  | _ => 2

theorem height_le_two (x : Option Value) : height x ≤ 2 := by
  rw [height.eq_def]
  split <;> omega

theorem Interval.unknown_join (i : Interval) : Interval.unknown.join i = .unknown := by
  rw [join]
  split <;> rfl

theorem Value.top_join (x : Value) : top.join x = top := by
  cases x with
  | scalar i => exact congrArg Value.scalar (Interval.unknown_join i)
  | pointer p => rfl

/-- Joining does not raise the height of an entry. -/
theorem height_joinEntry_le (x y : Option Value) :
    height (Table.joinEntry Value.join x y) ≤ height x := by
  match x, y with
  | none, y => exact height_le_two _
  | some x, none => exact Nat.le_refl _
  | some (.scalar .unknown), some y =>
    exact Nat.le_of_eq (congrArg (height ∘ some) (Value.top_join y))
  | some (.scalar (.constant _)), some _ => exact height_le_two _
  | some (.scalar (.range _ _)), some _ => exact height_le_two _
  | some (.pointer .untracked), some (.scalar _) => exact Nat.zero_le _
  | some (.pointer .untracked), some (.pointer _) => exact Nat.le_refl _
  | some (.pointer (.buffer _ _)), some _ => exact height_le_two _

theorem height_widened_le_one (x : Value) : height (some x.widened) ≤ 1 := by
  cases x
  · exact Nat.zero_le _
  · exact Nat.le_refl _

/-- An entry that joining changes is lower once it is widened. -/
theorem height_widened_joinEntry_lt {x y : Option Value}
    (h : Table.joinEntry Value.join x y ≠ x) :
    height ((Table.joinEntry Value.join x y).map Value.widened) < height x := by
  match x, y with
  | none, none => exact absurd rfl h
  | none, some y => exact Nat.lt_succ_of_le (height_widened_le_one y)
  | some x, none => exact absurd rfl h
  | some (.scalar .unknown), some y => exact absurd (congrArg some (Value.top_join y)) h
  | some (.scalar (.constant _)), some _ => exact Nat.lt_succ_of_le (height_widened_le_one _)
  | some (.scalar (.range _ _)), some _ => exact Nat.lt_succ_of_le (height_widened_le_one _)
  | some (.pointer .untracked), some (.scalar _) => exact Nat.zero_lt_one
  | some (.pointer .untracked), some (.pointer _) => exact absurd rfl h
  | some (.pointer (.buffer _ _)), some _ => exact Nat.lt_succ_of_le (height_widened_le_one _)

namespace Store

/-- How often variables of the store can still be widened to something else. -/
def height (vars : List String) (s : Store) : Nat :=
  sumOf (fun var => BufferBounds.height (s.get? var)) vars

theorem height_le (vars : List String) (s : Store) : s.height vars ≤ 2 * vars.length := by
  rw [height]
  induction vars with
  | nil => exact Nat.le_refl 0
  | cons var vars ih =>
    have := height_le_two (s.get? var)
    simp only [sumOf_cons, List.length_cons]
    omega

theorem height_join_le (vars : List String) (s t : Store) :
    (s.join t).height vars ≤ s.height vars :=
  sumOf_le_sumOf fun var _ => by
    rw [get?_join]
    exact height_joinEntry_le _ _

/-- Widening the variables that a join changes leaves the others as they were. -/
theorem get?_widen_join_of_notMem {s t : Store} {var : String}
    (h : var ∉ s.changed (s.join t)) :
    ((s.join t).widen (s.changed (s.join t))).get? var = s.get? var := by
  rw [get?_widen, if_neg h]
  exact (Decidable.not_not.mp fun hne => h (mem_changed_iff.mpr hne)).symm

/-- A variable that a join changes is lower once it is widened. -/
theorem height_get?_widen_join_lt {s t : Store} {var : String}
    (h : var ∈ s.changed (s.join t)) :
    BufferBounds.height (((s.join t).widen (s.changed (s.join t))).get? var) <
      BufferBounds.height (s.get? var) := by
  have hvar := (mem_changed_iff.mp h).symm
  rw [get?_widen, if_pos h]
  rw [get?_join] at hvar ⊢
  exact height_widened_joinEntry_lt hvar

/-- Widening the variables that a join changes lowers the store. -/
theorem height_widen_join_lt {vars : List String} {s t : Store} (ht : t.Within vars)
    (h : s.join t ≠ s) :
    ((s.join t).widen (s.changed (s.join t))).height vars < s.height vars := by
  have hchanged : ∃ var, var ∈ s.changed (s.join t) := by
    refine Classical.byContradiction fun hn => h (ext_get? fun var => ?_)
    exact Classical.byContradiction fun hv => hn ⟨var, mem_changed_iff.mpr (Ne.symm hv)⟩
  obtain ⟨var, hvar⟩ := hchanged
  have hmem : var ∈ vars := by
    have hne := mem_changed_iff.mp hvar
    rw [get?_join] at hne
    refine within_iff.mp ht var ?_
    cases hget : t.get? var with
    | some x => rfl
    | none =>
      rw [hget, Table.joinEntry_none_right] at hne
      exact absurd rfl hne
  refine sumOf_lt_sumOf (fun v _ => ?_) hmem (height_get?_widen_join_lt hvar)
  by_cases hv : v ∈ s.changed (s.join t)
  · exact Nat.le_of_lt (height_get?_widen_join_lt hv)
  · exact Nat.le_of_eq (congrArg BufferBounds.height (get?_widen_join_of_notMem hv))

end Store

namespace Progress

variable {g : Flow}

/-! ## Potential -/

/-- How often the store at the start of a block can still change. -/
def remaining (settings : Settings) (p : Progress g) (id : String) : Nat :=
  (settings.maxFixpointIterations.toNat - p.changes.getD id 0) +
    match p.entries[id]? with
    | none => 2 * g.assigned.length + 1
    | some s => s.height g.assigned

/-- How often the stores at the starts of loops can still change. -/
def potential (settings : Settings) (p : Progress g) : Nat :=
  sumOf (p.remaining settings) (g.orderIds.filter g.isLoopHeader)

/-- The potential does not depend on blocks where no loop starts. -/
theorem potential_congr {settings : Settings} {p q : Progress g}
    (h : ∀ id, g.isLoopHeader id → p.remaining settings id = q.remaining settings id) :
    p.potential settings = q.potential settings :=
  sumOf_congr fun id hid => h id (List.mem_filter.mp hid).2

/-- The potential falls if the store at the start of one loop changes, and only that one. -/
theorem potential_lt {settings : Settings} {p q : Progress g} {b : Block} (hb : b ∈ g.order)
    (hheader : g.isLoopHeader b.id) (hlt : p.remaining settings b.id < q.remaining settings b.id)
    (hother : ∀ id, id ≠ b.id → p.remaining settings id = q.remaining settings id) :
    p.potential settings < q.potential settings := by
  have hmem : b.id ∈ g.orderIds.filter g.isLoopHeader :=
    List.mem_filter.mpr ⟨List.mem_map_of_mem hb, hheader⟩
  refine sumOf_lt_sumOf (fun id _ => ?_) hmem hlt
  by_cases hid : id = b.id
  · exact hid ▸ Nat.le_of_lt hlt
  · exact Nat.le_of_eq (hother id hid)

end Progress

/-! ## Weights -/

namespace Flow

/-- What a pending place counts for. -/
def weight (g : Flow) (place : Nat) : Nat :=
  match g.order[place]? with
  | some b => if g.isLoopHeader b.id then 1 else tripled (g.order.length - place)
  | none => 1

/-- What pending places count for. -/
def totalWeight (g : Flow) (places : List Nat) : Nat := sumOf g.weight places

/-- No visit raises the weight of the pending places by more. -/
def maxGain (g : Flow) : Nat := 2 * tripled g.order.length

theorem weight_pos (g : Flow) (place : Nat) : 0 < g.weight place := by
  rw [weight]
  split
  · split
    · exact Nat.zero_lt_one
    · exact tripled_pos _
  · exact Nat.zero_lt_one

theorem weight_le (g : Flow) (place : Nat) : g.weight place ≤ tripled g.order.length := by
  have hpos : 0 < tripled g.order.length := tripled_pos _
  rw [weight]
  split
  · split
    · exact hpos
    · exact tripled_le_tripled (Nat.sub_le _ _)
  · exact hpos

theorem totalWeight_enqueue_le (g : Flow) (place : Nat) (places : List Nat) :
    g.totalWeight (enqueue place places) ≤ g.weight place + g.totalWeight places := by
  unfold totalWeight
  induction places with
  | nil => simp [enqueue]
  | cons first rest ih =>
    rw [enqueue]
    split
    · simp
    · split
      · simp
      · simp only [sumOf_cons]
        omega

theorem totalWeight_foldl_enqueue_le (g : Flow) (new places : List Nat) :
    g.totalWeight (new.foldl (fun pending place => enqueue place pending) places)
      ≤ g.totalWeight new + g.totalWeight places := by
  induction new generalizing places with
  | nil => simp [totalWeight]
  | cons place new ih =>
    have h₁ := ih (enqueue place places)
    have h₂ := g.totalWeight_enqueue_le place places
    simp only [List.foldl_cons]
    simp only [totalWeight, sumOf_cons] at h₁ h₂ ⊢
    omega

theorem length_targetPlaces_le (g : Flow) (b : Block) : (g.targetPlaces b).length ≤ 2 :=
  Nat.le_trans (List.length_filterMap_le ..) b.terminator.length_targets_le

theorem totalWeight_le_of_forall {g : Flow} {places : List Nat} {bound : Nat}
    (h : ∀ place ∈ places, g.weight place ≤ bound) :
    g.totalWeight places ≤ places.length * bound := by
  rw [totalWeight]
  induction places with
  | nil => simp
  | cons place places ih =>
    have h₁ := h place (List.mem_cons_self ..)
    have h₂ := ih fun q hq => h q (List.mem_cons_of_mem _ hq)
    simp only [sumOf_cons, List.length_cons, Nat.add_mul, Nat.one_mul]
    omega

theorem totalWeight_targetPlaces_le (g : Flow) (b : Block) :
    g.totalWeight (g.targetPlaces b) ≤ g.maxGain :=
  Nat.le_trans (totalWeight_le_of_forall fun place _ => g.weight_le place)
    (Nat.mul_le_mul_right _ (g.length_targetPlaces_le b))

theorem block_of_position? {g : Flow} {id : String} {place : Nat}
    (h : g.position? id = some place) :
    ∃ b, g.order[place]? = some b ∧ b.id = id := by
  obtain ⟨hlt, hid, -⟩ := List.findIdx?_eq_some_iff_getElem.mp h
  exact ⟨_, List.getElem?_eq_getElem hlt, beq_iff_eq.mp hid⟩

/-- An edge that does not lead to a later place leads to the start of a loop. -/
theorem isLoopHeader_of_le {g : Flow} {b : Block} {id : String} {place target : Nat}
    (hb : g.order[place]? = some b) (hid : id ∈ b.terminator.targets)
    (hto : g.position? id = some target) (hle : target ≤ place) : g.isLoopHeader id := by
  rw [isLoopHeader]
  rw [hto]
  refine List.any_eq_true.mpr ⟨b, ?_, by simpa using hid⟩
  refine List.mem_of_getElem? (i := place - target) ?_
  rw [List.getElem?_drop, Nat.add_sub_cancel' hle]
  exact hb

/-- Where no loop starts, a place outweighs the places that its block leads to. -/
theorem totalWeight_targetPlaces_lt {g : Flow} {place : Nat} {b : Block}
    (hb : g.order[place]? = some b) (hheader : ¬ g.isLoopHeader b.id) :
    g.totalWeight (g.targetPlaces b) < g.weight place := by
  obtain ⟨hlt, -⟩ := List.getElem?_eq_some_iff.mp hb
  have hweight : g.weight place = 3 * tripled (g.order.length - place - 1) := by
    rw [weight]
    rw [hb]
    simp only [if_neg hheader]
    rw [← Nat.sub_add_cancel (show 1 ≤ g.order.length - place by omega), Nat.add_sub_cancel]
    rfl
  have hpos : 0 < tripled (g.order.length - place - 1) := tripled_pos _
  have hle : ∀ target ∈ g.targetPlaces b,
      g.weight target ≤ tripled (g.order.length - place - 1) := by
    intro target ht
    obtain ⟨id, hid, hto⟩ := List.mem_filterMap.mp ht
    obtain ⟨b', hb', rfl⟩ := block_of_position? hto
    rw [weight]
    rw [hb']
    simp only
    split
    · exact hpos
    · rename_i hh
      have : place < target :=
        Nat.lt_of_not_le fun hle => hh (isLoopHeader_of_le hb hid hto hle)
      exact tripled_le_tripled (by omega)
  have hsum := totalWeight_le_of_forall hle
  have htwo :=
    Nat.mul_le_mul_right (tripled (g.order.length - place - 1)) (g.length_targetPlaces_le b)
  omega

end Flow

namespace Progress

variable {g : Flow}

/-! ## The measure -/

/-- A number that every step lowers. -/
def measure (settings : Settings) (p : Progress g) : Nat :=
  p.potential settings * (g.maxGain + 1) + g.totalWeight p.pending

/-- The measure falls with the potential, if the pending places do not gain too much weight. -/
theorem measure_lt_of_potential_lt {settings : Settings} {p q : Progress g}
    (hpot : p.potential settings < q.potential settings)
    (hpending : g.totalWeight p.pending ≤ g.maxGain + g.totalWeight q.pending) :
    p.measure settings < q.measure settings := by
  have h := Nat.mul_le_mul_right (g.maxGain + 1) hpot
  unfold measure
  rw [Nat.succ_mul] at h
  omega

/-! ## Runs -/

section Run

variable (p : Progress g) (settings : Settings) {b : Block} (hb : b ∈ g.order) {entry : Store}
  (hentry : entry.Within g.assigned)

theorem totalWeight_run_le : g.totalWeight (p.run settings b hb entry hentry).pending
    ≤ g.totalWeight (g.targetPlaces b) + g.totalWeight p.pending := by
  rw [run]
  simp only
  split
  · omega
  · exact g.totalWeight_foldl_enqueue_le _ _

theorem remaining_run_of_ne {id : String} (hid : id ≠ b.id) :
    (p.run settings b hb entry hentry).remaining settings id = p.remaining settings id := by
  unfold remaining run
  simp only [Std.ExtTreeMap.getElem?_insert, Std.LawfulEqCmp.compare_eq_iff_eq, if_neg hid.symm]

theorem remaining_run_self :
    (p.run settings b hb entry hentry).remaining settings b.id =
      (settings.maxFixpointIterations.toNat - p.changes.getD b.id 0) +
        entry.height g.assigned := by
  unfold remaining run
  simp only [Std.ExtTreeMap.getElem?_insert, Std.LawfulEqCmp.compare_eq_iff_eq, if_true]

theorem remaining_count_of_ne {id id' : String} (hid : id ≠ id') :
    (p.count id').remaining settings id = p.remaining settings id := by
  unfold remaining count
  simp only [Std.ExtTreeMap.getD_insert, Std.LawfulEqCmp.compare_eq_iff_eq, if_neg hid.symm]

theorem changes_count_self (id : String) :
    (p.count id).changes.getD id 0 = p.changes.getD id 0 + 1 := by
  rw [count]
  simp only [Std.ExtTreeMap.getD_insert, Std.LawfulEqCmp.compare_eq_iff_eq, if_true]

end Run

/-! ## Visits -/

/-- A visit lowers the measure by more than it had without the place that is visited. -/
theorem measure_visit_lt (p : Progress g) (settings : Settings) {place : Nat} {b : Block}
    (hplace : g.order[place]? = some b) {incoming : Store}
    (hincoming : incoming.Within g.assigned) :
    (p.visit settings b (List.mem_of_getElem? hplace) incoming hincoming).measure settings
      < g.weight place + p.measure settings := by
  have hpos := g.weight_pos place
  -- Running a block where no loop starts keeps the potential and lowers the weight.
  have plain : ∀ (entry : Store) (hentry : entry.Within g.assigned), ¬ g.isLoopHeader b.id →
      (p.run settings b (List.mem_of_getElem? hplace) entry hentry).measure settings
        < g.weight place + p.measure settings := by
    intro entry hentry hheader
    have hpot : (p.run settings b (List.mem_of_getElem? hplace) entry hentry).potential settings
        = p.potential settings := potential_congr fun id hid =>
      remaining_run_of_ne p settings _ hentry fun he => hheader (he ▸ hid)
    have h₁ := totalWeight_run_le p settings (List.mem_of_getElem? hplace) hentry
    have h₂ := Flow.totalWeight_targetPlaces_lt hplace hheader
    unfold measure
    rw [hpot]
    omega
  -- Running a block where a loop starts lowers the potential if less remains for it.
  have loop : ∀ (q : Progress g) (entry : Store) (hentry : entry.Within g.assigned),
      g.isLoopHeader b.id → q.pending = p.pending →
      (∀ id, id ≠ b.id → q.remaining settings id = p.remaining settings id) →
      (q.run settings b (List.mem_of_getElem? hplace) entry hentry).remaining settings b.id
        < p.remaining settings b.id →
      (q.run settings b (List.mem_of_getElem? hplace) entry hentry).measure settings
        < g.weight place + p.measure settings := by
    intro q entry hentry hheader hpending hother hlt
    have h₁ := totalWeight_run_le q settings (List.mem_of_getElem? hplace) hentry
    have h₂ := g.totalWeight_targetPlaces_le b
    rw [hpending] at h₁
    refine Nat.lt_add_left _ (measure_lt_of_potential_lt ?_ (Nat.le_trans h₁ (by omega)))
    exact potential_lt (List.mem_of_getElem? hplace) hheader hlt fun id hid => by
      rw [remaining_run_of_ne q settings _ hentry hid, hother id hid]
  rw [visit]
  split
  · rename_i hold
    by_cases hheader : g.isLoopHeader b.id
    · refine loop p incoming hincoming hheader rfl (fun _ _ => rfl) ?_
      rw [remaining_run_self, remaining, hold]
      have := incoming.height_le g.assigned
      simp only
      omega
    · exact plain incoming hincoming hheader
  · rename_i old hold
    have hjoin := Store.height_join_le g.assigned old incoming
    simp only
    split
    · omega
    · rename_i hne
      split
      · rename_i hheader
        split
        · rename_i hcap
          rw [changes_count_self] at hcap
          refine loop ((p.count b.id).widen b.id) _ _ hheader rfl
            (fun id hid => remaining_count_of_ne p settings hid) ?_
          have hlt := Store.height_widen_join_lt hincoming hne
          rw [remaining_run_self, remaining, hold]
          have hc : ((p.count b.id).widen b.id).changes.getD b.id 0 = p.changes.getD b.id 0 + 1 :=
            changes_count_self p b.id
          rw [hc]
          simp only
          omega
        · rename_i hcap
          rw [changes_count_self] at hcap
          refine loop (p.count b.id) _ _ hheader rfl
            (fun id hid => remaining_count_of_ne p settings hid) ?_
          rw [remaining_run_self, remaining, hold, changes_count_self]
          simp only
          omega
      · rename_i hheader
        exact plain _ _ hheader

/-- Every step lowers the measure. -/
theorem measure_step?_lt {p q : Progress g} {settings : Settings}
    (h : p.step? settings = some q) : q.measure settings < p.measure settings := by
  rw [step?] at h
  split at h
  · cases h
  · rename_i place pending hp
    have hpos := g.weight_pos place
    have hmeasure : p.measure settings =
        g.weight place + ({ p with pending } : Progress g).measure settings := by
      have hpot : ({ p with pending } : Progress g).potential settings = p.potential settings := rfl
      unfold measure
      rw [hp, hpot]
      simp only [Flow.totalWeight, sumOf_cons]
      omega
    rw [hmeasure]
    simp only at h
    split at h
    · obtain rfl := Option.some.inj h
      omega
    · split at h
      · obtain rfl := Option.some.inj h
        omega
      · obtain rfl := Option.some.inj h
        exact measure_visit_lt _ settings (by assumption) _

end Progress

end BufferBounds
