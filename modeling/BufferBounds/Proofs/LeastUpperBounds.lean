import BufferBounds.Proofs.NormalForms

/-!
# Joins are least upper bounds

What is known of a value can be ordered: the less is known, the higher. Intervals are ordered by
their integers, buffers by their sites and sizes, and stores variable by variable, where no value at
all lies below every other. Of the normal values, pointers, intervals and stores this is a partial
order, and in it `join` takes the least upper bound.

All follows from the laws of joins and one fact for each type: joining to `y` changes nothing exactly
if what is joined lies below `y`. The propagation relies on it twice. It compares a join with the
store there was to see whether anything new arrived, and it joins what arrives along several edges
one after the other.
-/

namespace BufferBounds

/-! ## Joins in an order -/

/-- On the normal values `Below` is an order, and `join` takes the least upper bound in it. -/
structure IsJoin {α : Type} (Normal : α → Prop) (Below : α → α → Prop) (join : α → α → α) :
    Prop where
  /-- joins of normal values are normal -/
  normal : ∀ {x y}, Normal x → Normal y → Normal (join x y)
  /-- a value lies below itself -/
  refl : ∀ {x}, Normal x → Below x x
  /-- what lies below something lies below all that is above it -/
  trans : ∀ {x y z}, Normal x → Normal y → Normal z → Below x y → Below y z → Below x z
  /-- two values that lie below each other are one -/
  antisymm : ∀ {x y}, Normal x → Normal y → Below x y → Below y x → x = y
  /-- a join is an upper bound of what it joins -/
  left : ∀ {x y}, Normal x → Normal y → Below x (join x y)
  /-- a join is an upper bound of what is joined to it -/
  right : ∀ {x y}, Normal x → Normal y → Below y (join x y)
  /-- a join is the least upper bound -/
  least : ∀ {x y z}, Normal x → Normal y → Normal z → Below x z → Below y z → Below (join x y) z
  /-- joins are commutative -/
  comm : ∀ {x y}, Normal x → Normal y → join x y = join y x
  /-- joins are associative -/
  assoc : ∀ {x y z}, Normal x → Normal y → Normal z → join (join x y) z = join x (join y z)
  /-- joins are idempotent -/
  self : ∀ {x}, Normal x → join x x = x
  /-- a join adds nothing exactly if what is joined lies below -/
  eq_right_iff : ∀ {x y}, Normal x → Normal y → (join x y = y ↔ Below x y)

namespace IsJoin

variable {α : Type} {Normal : α → Prop} {Below : α → α → Prop} {join : α → α → α} {x y z : α}

/-- The laws of joins make `Below` an order with least upper bounds, if it is the order in which a
join adds nothing to what lies above. -/
theorem of_laws (normal : ∀ {x y}, Normal x → Normal y → Normal (join x y))
    (comm : ∀ {x y}, Normal x → Normal y → join x y = join y x)
    (assoc : ∀ {x y z}, Normal x → Normal y → Normal z →
      join (join x y) z = join x (join y z))
    (self : ∀ x, join x x = x)
    (eq_right_iff : ∀ {x y}, Normal x → Normal y → (join x y = y ↔ Below x y)) :
    IsJoin Normal Below join where
  normal := normal
  comm := comm
  assoc := assoc
  self _ := self _
  eq_right_iff := eq_right_iff
  refl hx := (eq_right_iff hx hx).mp (self _)
  trans {x y z} hx hy hz hxy hyz := by
    rw [← eq_right_iff hx hy] at hxy
    rw [← eq_right_iff hy hz] at hyz
    rw [← eq_right_iff hx hz]
    calc join x z = join x (join y z) := by rw [hyz]
      _ = join (join x y) z := (assoc hx hy hz).symm
      _ = z := by rw [hxy, hyz]
  antisymm hx hy hxy hyx := by
    rw [← eq_right_iff hx hy] at hxy
    rw [← eq_right_iff hy hx] at hyx
    rw [← hyx, comm hy hx, hxy]
  left hx hy := by
    rw [← eq_right_iff hx (normal hx hy), ← assoc hx hx hy, self]
  right hx hy := by
    rw [← eq_right_iff hy (normal hx hy), comm hx hy, ← assoc hy hy hx, self]
  least hx hy hz hxz hyz := by
    rw [← eq_right_iff hx hz] at hxz
    rw [← eq_right_iff hy hz] at hyz
    rw [← eq_right_iff (normal hx hy) hz, assoc hx hy hz, hyz, hxz]

variable (h : IsJoin Normal Below join)
include h

theorem below_iff (hx : Normal x) (hy : Normal y) (hz : Normal z) :
    Below (join x y) z ↔ Below x z ∧ Below y z := by
  have hxy := h.normal hx hy
  constructor
  · intro hle
    exact ⟨h.trans hx hxy hz (h.left hx hy) hle, h.trans hy hxy hz (h.right hx hy) hle⟩
  · rintro ⟨hxz, hyz⟩
    exact h.least hx hy hz hxz hyz

/-- A join adds nothing to what it starts with exactly if what is joined lies below. -/
theorem eq_left_iff (hx : Normal x) (hy : Normal y) : join x y = x ↔ Below y x := by
  rw [h.comm hx hy, h.eq_right_iff hy hx]

/-- Joining one after the other leads to the least upper bound of all. -/
theorem foldl_below_iff {xs : List α} (hx : Normal x) (hxs : ∀ y ∈ xs, Normal y) (hz : Normal z) :
    Below (xs.foldl join x) z ↔ Below x z ∧ ∀ y ∈ xs, Below y z := by
  induction xs generalizing x with
  | nil => simp
  | cons y xs ih =>
    have hy := hxs y (List.mem_cons_self ..)
    rw [List.foldl_cons, ih (h.normal hx hy) fun z hz => hxs z (List.mem_cons_of_mem _ hz),
      h.below_iff hx hy hz, List.forall_mem_cons, and_assoc]

end IsJoin

/-! ## Intervals -/

namespace Interval

variable {i j : Interval}

/-- All integers of the one interval are integers of the other. -/
def Below (i j : Interval) : Prop := ∀ n ∈ i, n ∈ j

theorem Normal.join_eq_right_iff (hi : i.Normal) (hj : j.Normal) : i.join j = j ↔ i.Below j := by
  constructor
  · intro h n hn
    rw [← h]
    exact mem_join_left hn
  · intro h
    have hlow : j.low ≤ i.low := hi.le_low fun n hn => (mem_iff_ends.mp (h n hn)).1
    have hhigh : i.high ≤ j.high := hi.high_le fun n hn => (mem_iff_ends.mp (h n hn)).2
    obtain ⟨heq, heq'⟩ := ends_join hi hj
    refine (hi.join j).ext hj ?_ ?_
    · rw [heq, min_eq_right hlow]
    · rw [heq', max_eq_right hhigh]

theorem isJoin : IsJoin Normal Below join :=
  .of_laws (fun hi _ => hi.join _) join_comm join_assoc join_self Normal.join_eq_right_iff

end Interval

/-! ## Pointers and values -/

/-- What is known of the one pointer holds of the other too. -/
inductive Pointer.Below : Pointer → Pointer → Prop
  /-- a buffer with fewer sites and a smaller interval of sizes lies below -/
  | buffer {sites sites' : Sites} {size size' : Interval} (hsites : ∀ site ∈ sites, site ∈ sites')
      (hsize : size.Below size') : Below (.buffer sites size) (.buffer sites' size')
  /-- every pointer lies below an untracked one -/
  | untracked (p : Pointer) : Below p .untracked

/-- What is known of the one value holds of the other too. -/
inductive Value.Below : Value → Value → Prop
  /-- numbers are ordered as their intervals are -/
  | scalar {i j : Interval} (h : i.Below j) : Below (.scalar i) (.scalar j)
  /-- pointers keep their order -/
  | pointer {p q : Pointer} (h : p.Below q) : Below (.pointer p) (.pointer q)
  /-- every value lies below the unknown number -/
  | top (x : Value) : Below x (.scalar .unknown)

namespace Pointer

variable {p q : Pointer}

theorem union_eq_right_iff {sites sites' : Sites} :
    sites ∪ sites' = sites' ↔ ∀ site ∈ sites, site ∈ sites' := by
  rw [Std.ExtTreeSet.ext_mem_iff]
  simp only [Std.ExtTreeSet.mem_union_iff, or_iff_right_iff_imp]

theorem Normal.join_eq_right_iff (hp : p.Normal) (hq : q.Normal) : p.join q = q ↔ p.Below q := by
  cases p with
  | untracked =>
    cases q with
    | untracked => exact iff_of_true rfl (.untracked _)
    | buffer sites' size' => exact iff_of_false nofun nofun
  | buffer sites size =>
    cases q with
    | untracked => exact iff_of_true rfl (.untracked _)
    | buffer sites' size' =>
      rw [Pointer.join, buffer.injEq, union_eq_right_iff, Interval.Normal.join_eq_right_iff hp hq]
      constructor
      · rintro ⟨hsites, hsize⟩
        exact .buffer hsites hsize
      · rintro ⟨hsites, hsize⟩
        exact ⟨hsites, hsize⟩

theorem isJoin : IsJoin Normal Below join :=
  .of_laws (fun hp _ => hp.join _) join_comm join_assoc join_self Normal.join_eq_right_iff

end Pointer

namespace Value

variable {x y : Value}

theorem Normal.join_eq_right_iff (hx : x.Normal) (hy : y.Normal) : x.join y = y ↔ x.Below y := by
  cases x with
  | scalar i =>
    cases y with
    | scalar j =>
      rw [Value.join, scalar.injEq, Interval.Normal.join_eq_right_iff hx hy]
      constructor
      · exact .scalar
      · intro h
        cases h with
        | scalar h => exact h
        | top => exact fun n _ => Interval.mem_unknown
    | pointer q => exact iff_of_false nofun nofun
  | pointer p =>
    cases y with
    | scalar j =>
      constructor
      · intro h
        obtain rfl : Interval.unknown = j := scalar.inj h
        exact .top _
      · intro h
        cases h
        rfl
    | pointer q =>
      rw [Value.join, pointer.injEq, Pointer.Normal.join_eq_right_iff hx hy]
      constructor
      · exact .pointer
      · intro h
        cases h with
        | pointer h => exact h

theorem isJoin : IsJoin Normal Below join :=
  .of_laws (fun hx _ => hx.join _) join_comm join_assoc join_self Normal.join_eq_right_iff

end Value

/-! ## Stores -/

namespace Store

variable {s t : Store}

/-- Each variable that has a value in the one store has one in the other, which lies above. -/
def Below (s t : Store) : Prop :=
  ∀ var x, s.get? var = some x → ∃ y, t.get? var = some y ∧ x.Below y

theorem Normal.join_eq_right_iff (hs : s.Normal) (ht : t.Normal) : s.join t = t ↔ s.Below t := by
  rw [Store.ext_get?_iff]
  refine forall_congr' fun var => ?_
  rw [get?_join]
  cases hx : s.get? var with
  | none => exact iff_of_true rfl nofun
  | some x =>
    cases hy : t.get? var with
    | none =>
      refine iff_of_false nofun fun h => ?_
      obtain ⟨y, hy, -⟩ := h x rfl
      cases hy
    | some y =>
      rw [Table.joinEntry, Option.some_inj, (hs var x hx).join_eq_right_iff (ht var y hy)]
      simp

theorem isJoin : IsJoin Normal Below join :=
  .of_laws Normal.join join_comm join_assoc join_self Normal.join_eq_right_iff

/-- The join of some stores lies below exactly what all of them lie below. -/
theorem below_iff_of_joinAll? {ss : List Store} {u : Store} (hss : ∀ t ∈ ss, t.Normal)
    (hs : joinAll? ss = some s) (hu : u.Normal) : s.Below u ↔ ∀ t ∈ ss, t.Below u := by
  cases ss with
  | nil => cases hs
  | cons t ss =>
    obtain rfl := Option.some.inj hs
    obtain ⟨ht, hss⟩ := List.forall_mem_cons.mp hss
    rw [isJoin.foldl_below_iff ht hss hu, List.forall_mem_cons]

/-- **Joins are least upper bounds** of normal intervals, pointers, values and stores. So an incoming
store leaves the store it is joined to as it was exactly if it lies below, and the join of several
stores, one after the other, is the least upper bound of all of them. -/
theorem joins_least :
    IsJoin Interval.Normal Interval.Below Interval.join ∧
    IsJoin Pointer.Normal Pointer.Below Pointer.join ∧
    IsJoin Value.Normal Value.Below Value.join ∧
    IsJoin Store.Normal Store.Below Store.join ∧
    (∀ old incoming : Store, old.Normal → incoming.Normal →
      (old.join incoming = old ↔ incoming.Below old)) ∧
    ∀ (ss : List Store) (s : Store), (∀ t ∈ ss, t.Normal) → joinAll? ss = some s →
      (∀ t ∈ ss, t.Below s) ∧ ∀ u : Store, u.Normal → (∀ t ∈ ss, t.Below u) → s.Below u := by
  refine ⟨Interval.isJoin, Pointer.isJoin, Value.isJoin, isJoin, ?_, ?_⟩
  · intro old incoming hold hincoming
    exact isJoin.eq_left_iff hold hincoming
  · intro ss s hss hs
    have hnormal : s.Normal := Value.hereditary_normal.joinAll? hss hs
    refine ⟨?_, fun u hu => (below_iff_of_joinAll? hss hs hu).mpr⟩
    exact (below_iff_of_joinAll? hss hs hnormal).mp (isJoin.refl hnormal)

end Store

end BufferBounds
