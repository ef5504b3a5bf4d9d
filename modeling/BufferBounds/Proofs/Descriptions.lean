import BufferBounds.Proofs.AssignedValues
import BufferBounds.Proofs.Execution

/-!
# What stores tell of memories

When an interval, a pointer, a value or a store describes what a run holds, and that each operation
keeps the description true: evaluating an expression, a statement, and the way along an edge. A
variable that a store has no value for is undefined in the memory, unless it is one that is never
assigned; this is what lets a join keep the value of the side that has one.
-/

namespace BufferBounds

/-! ## Intervals -/

/-- What the interval tells holds of the content taken as a number. Of a buffer nothing may be
told. -/
def Interval.Describes (i : Interval) : Content → Prop
  | .number n => n.toInt ∈ i
  | .buffer _ _ => i = .unknown

namespace Interval

variable {i j : Interval} {d d₁ d₂ : Content}

theorem describes_unknown (d : Content) : unknown.Describes d := by
  cases d with
  | number n => exact mem_unknown
  | buffer site size => rfl

theorem Describes.join_left (h : i.Describes d) (j : Interval) : (i.join j).Describes d := by
  cases d with
  | number n => exact mem_join_left h
  | buffer site size =>
    obtain rfl : i = .unknown := h
    exact unknown_join j

theorem Describes.join_right (h : j.Describes d) (i : Interval) : (i.join j).Describes d := by
  cases d with
  | number n => exact mem_join_right h
  | buffer site size =>
    obtain rfl : j = .unknown := h
    exact join_unknown i

/-- An operation that gives nothing for an unknown operand, and holds the outcome for numbers, holds
whatever the outcome is. -/
theorem Describes.outcome {op : Int → Int → Int} {f : Interval → Interval → Interval}
    (hleft : f unknown j = unknown) (hright : f i unknown = unknown)
    (hmem : ∀ m ∈ i, ∀ n ∈ j, op m n ∈ f i j) (hi : i.Describes d₁) (hj : j.Describes d₂)
    (h : Content.Outcome op d₁ d₂ d) : (f i j).Describes d := by
  cases d₁ with
  | buffer site size =>
    obtain rfl : i = .unknown := hi
    rw [hleft]
    exact describes_unknown d
  | number m =>
    cases d₂ with
    | buffer site size =>
      obtain rfl : j = .unknown := hj
      rw [hright]
      exact describes_unknown d
    | number n =>
      obtain rfl : d = .number (saturate (op m.toInt n.toInt)) := h
      exact saturate_mem (hmem _ hi _ hj)

theorem Describes.add (hi : i.Describes d₁) (hj : j.Describes d₂)
    (h : Content.Outcome (· + ·) d₁ d₂ d) : (i.add j).Describes d :=
  outcome rfl (add_unknown i) (fun _ hm _ hn => add_mem_add hm hn) hi hj h

theorem Describes.sub (hi : i.Describes d₁) (hj : j.Describes d₂)
    (h : Content.Outcome (· - ·) d₁ d₂ d) : (i.sub j).Describes d :=
  outcome rfl (sub_unknown i) (fun _ hm _ hn => sub_mem_sub hm hn) hi hj h

/-- A word that is the content, if that is a number, lies in the interval. -/
theorem Describes.mem_of_number (h : i.Describes d) {p : Int64}
    (hp : ∀ n, d = .number n → p = n) : p.toInt ∈ i := by
  cases d with
  | number n =>
    rw [hp n rfl]
    exact h
  | buffer site size =>
    obtain rfl : i = .unknown := h
    exact mem_unknown

/-- A word that is the product, if that is one of numbers and a word, lies in the interval of
products. -/
theorem Describes.mem_mul (hi : i.Describes d₁) (hj : j.Describes d₂) {p : Int64}
    (hp : ∀ a b n, d₁ = .number a → d₂ = .number b → word? (a.toInt * b.toInt) = some n → p = n) :
    p.toInt ∈ i.mul j := by
  cases d₁ with
  | buffer site size =>
    obtain rfl : i = .unknown := hi
    exact mem_unknown
  | number a =>
    cases d₂ with
    | buffer site size =>
      obtain rfl : j = .unknown := hj
      rw [mul_unknown]
      exact mem_unknown
    | number b => exact Interval.mem_mul hi hj fun n => hp a b n rfl rfl

/-- Where more is told than nothing the content is a number. -/
theorem Describes.exists_number (h : i.Describes d) (hi : i ≠ .unknown) :
    ∃ n, d = .number n ∧ n.toInt ∈ i := by
  cases d with
  | number n => exact ⟨n, rfl, h⟩
  | buffer site size => exact absurd h hi

end Interval

/-! ## Pointers and values -/

/-- A tracked buffer is one that was allocated at one of the sites, with a size as told. -/
def Pointer.Describes : Pointer → Content → Prop
  | .buffer sites size, .buffer site n => site ∈ sites ∧ n.toInt ∈ size
  | .buffer _ _, .number _ => False
  | .untracked, _ => True

/-- What the value tells holds of the content. -/
def Value.Describes : Value → Content → Prop
  | .scalar i, d => i.Describes d
  | .pointer p, d => p.Describes d

namespace Pointer

variable {p q : Pointer} {d : Content}

theorem Describes.join_left (h : p.Describes d) (q : Pointer) : (p.join q).Describes d := by
  cases p with
  | untracked => exact trivial
  | buffer sites size =>
    cases q with
    | untracked => exact trivial
    | buffer sites' size' =>
      cases d with
      | number n => exact h
      | buffer site n =>
        exact ⟨Std.ExtTreeSet.mem_union_iff.mpr (Or.inl h.1), Interval.mem_join_left h.2⟩

theorem Describes.join_right (h : q.Describes d) (p : Pointer) : (p.join q).Describes d := by
  cases p with
  | untracked => exact trivial
  | buffer sites size =>
    cases q with
    | untracked => exact trivial
    | buffer sites' size' =>
      cases d with
      | number n => exact h
      | buffer site n =>
        exact ⟨Std.ExtTreeSet.mem_union_iff.mpr (Or.inr h.1), Interval.mem_join_right h.2⟩

theorem describes_fresh {site : Site} {size : Interval} {n : Int64} (h : n.toInt ∈ size) :
    (fresh site size).Describes (.buffer site n) :=
  ⟨Std.ExtTreeSet.mem_ofList.mpr (by simp), h⟩

end Pointer

namespace Value

variable {x y : Value} {d : Content}

theorem describes_top (d : Content) : top.Describes d := Interval.describes_unknown d

theorem Describes.number (h : x.Describes d) : x.number.Describes d := by
  cases x with
  | scalar i => exact h
  | pointer p => exact Interval.describes_unknown d

theorem Describes.join_left (h : x.Describes d) (y : Value) : (x.join y).Describes d := by
  cases x with
  | scalar i =>
    cases y with
    | scalar j => exact Interval.Describes.join_left h j
    | pointer q => exact describes_top d
  | pointer p =>
    cases y with
    | scalar j => exact describes_top d
    | pointer q => exact Pointer.Describes.join_left h q

theorem Describes.join_right (h : y.Describes d) (x : Value) : (x.join y).Describes d := by
  cases x with
  | scalar i =>
    cases y with
    | scalar j => exact Interval.Describes.join_right h i
    | pointer q => exact describes_top d
  | pointer p =>
    cases y with
    | scalar j => exact describes_top d
    | pointer q => exact Pointer.Describes.join_right h p

end Value

/-! ## Stores -/

namespace Memory

@[simp] theorem set_self (m : Memory) (var : String) (d : Content) : m.set var d var = some d :=
  if_pos rfl

theorem set_of_ne {var var' : String} (h : var ≠ var') (m : Memory) (d : Content) :
    m.set var d var' = m var' :=
  if_neg h

/-- Setting a variable to what it holds changes nothing. -/
theorem set_eq_self {m : Memory} {var : String} {d : Content} (h : m var = some d) :
    m.set var d = m := by
  funext var'
  by_cases heq : var = var'
  · subst heq
    rw [set_self, h]
  · exact set_of_ne heq m d

end Memory

namespace Store

/-- What the store tells holds in the memory. Variables other than `vars` are never assigned. -/
structure Describes (s : Store) (vars : List String) (m : Memory) : Prop where
  /-- a variable with a value holds what the value tells -/
  value : ∀ var d x, m var = some d → s.get? var = some x → x.Describes d
  /-- a variable without a value is undefined, unless it is never assigned -/
  defined : ∀ var d, m var = some d → s.get? var = none → var ∉ vars

variable {s t : Store} {vars : List String} {m : Memory} {var : String} {d : Content}

namespace Describes

theorem empty (h : ∀ var ∈ vars, m var = none) : (∅ : Store).Describes vars m where
  value var d x _ hx := by
    rw [get?_empty] at hx
    cases hx
  defined var d hd _ hmem := by
    rw [h var hmem] at hd
    cases hd

/-- Nothing that is read of a variable is wrong, be it that nothing is known. -/
theorem getD_top (hs : s.Describes vars m) (hd : m var = some d) :
    ((s.get? var).getD .top).Describes d := by
  cases h : s.get? var with
  | none => exact Value.describes_top d
  | some x => exact hs.value var d x hd h

theorem number (hs : s.Describes vars m) (hd : m var = some d) : (s.number var).Describes d := by
  rw [Store.number]
  split
  · rename_i x hx
    exact (hs.value var d x hd hx).number
  · exact Interval.describes_unknown d

theorem pointer (hs : s.Describes vars m) {p : Pointer} (hp : s.pointer? var = some p)
    (hd : m var = some d) : p.Describes d :=
  hs.value var d _ hd (pointer?_eq_some_iff.mp hp)

theorem bind (hs : s.Describes vars m) {x : Value} (hx : x.Describes d) :
    (s.bind var x).Describes vars (m.set var d) where
  value var' d' x' hd' hx' := by
    rw [get?_bind] at hx'
    by_cases heq : var = var'
    · subst heq
      rw [Memory.set_self] at hd'
      rw [if_pos rfl] at hx'
      exact Option.some.inj hd' ▸ Option.some.inj hx' ▸ hx
    · rw [Memory.set_of_ne heq] at hd'
      rw [if_neg heq] at hx'
      exact hs.value var' d' x' hd' hx'
  defined var' d' hd' hnone := by
    rw [get?_bind] at hnone
    by_cases heq : var = var'
    · rw [if_pos heq] at hnone
      cases hnone
    · rw [Memory.set_of_ne heq] at hd'
      rw [if_neg heq] at hnone
      exact hs.defined var' d' hd' hnone

/-- A variable may be given another value that is true of what it holds. -/
theorem rebind (hs : s.Describes vars m) {x : Value} (hd : m var = some d) (hx : x.Describes d) :
    (s.bind var x).Describes vars m := by
  rw [← Memory.set_eq_self hd]
  exact hs.bind hx

/-- The other store may have a value only for a variable that may be undefined. -/
theorem join_left (hs : s.Describes vars m) (ht : t.Within vars) :
    (s.join t).Describes vars m where
  value var d x hd hx := by
    rw [get?_join] at hx
    cases hsx : s.get? var with
    | none =>
      rw [hsx] at hx
      -- a variable that only `t` knows may be undefined, but this one is defined and unknown to `s`
      have hx : t.get? var = some x := hx
      have hmem := ht var (mem_iff_isSome_get?.mpr (by rw [hx]; rfl))
      exact absurd hmem (hs.defined var d hd hsx)
    | some x' =>
      have hx' := hs.value var d x' hd hsx
      rw [hsx] at hx
      cases hty : t.get? var with
      | none =>
        rw [hty] at hx
        exact Option.some.inj hx ▸ hx'
      | some y =>
        rw [hty] at hx
        exact Option.some.inj hx ▸ hx'.join_left y
  defined var d hd hnone := hs.defined var d hd (get?_join_eq_none_iff.mp hnone).1

theorem join_right (ht : t.Describes vars m) (hs : s.Within vars) :
    (s.join t).Describes vars m where
  value var d x hd hx := by
    rw [get?_join] at hx
    cases hsx : s.get? var with
    | none =>
      rw [hsx] at hx
      exact ht.value var d x hd hx
    | some x' =>
      rw [hsx] at hx
      cases hty : t.get? var with
      | none =>
        -- a variable that only `s` knows may be undefined, but this one is defined and unknown to `t`
        have hmem := hs var (mem_iff_isSome_get?.mpr (by rw [hsx]; rfl))
        exact absurd hmem (ht.defined var d hd hty)
      | some y =>
        rw [hty] at hx
        exact Option.some.inj hx ▸ (ht.value var d y hd hty).join_right x'
  defined var d hd hnone := ht.defined var d hd (get?_join_eq_none_iff.mp hnone).2

theorem foldl_join {ss : List Store} (hs : s.Describes vars m) (hss : ∀ t ∈ ss, t.Within vars) :
    (ss.foldl join s).Describes vars m := by
  induction ss generalizing s with
  | nil => exact hs
  | cons t ss ih =>
    exact ih (hs.join_left (hss t (List.mem_cons_self ..)))
      fun t ht => hss t (List.mem_cons_of_mem _ ht)

/-- The join of some stores tells what is true of a memory if one of them does. -/
theorem joinAll? {ss : List Store} (ht : t.Describes vars m) (hmem : t ∈ ss)
    (hss : ∀ t ∈ ss, t.Within vars) : ∃ s, Store.joinAll? ss = some s ∧ s.Describes vars m := by
  obtain ⟨before, after, rfl⟩ := List.append_of_mem hmem
  have hafter : ∀ t ∈ after, t.Within vars := fun t ht => hss t (by simp [ht])
  cases before with
  | nil => exact ⟨_, rfl, ht.foldl_join hafter⟩
  | cons s₀ before =>
    refine ⟨(before ++ t :: after).foldl join s₀, rfl, ?_⟩
    rw [List.foldl_append, List.foldl_cons]
    -- what is joined before `t` is one store, what is joined after it is joined to it
    have hbefore : ∀ s ∈ s₀ :: before, s.Within vars :=
      fun s hs => hss s (List.mem_append_left _ hs)
    exact foldl_join (ht.join_right (Within.joinAll? hbefore rfl)) hafter

end Describes

end Store

end BufferBounds
