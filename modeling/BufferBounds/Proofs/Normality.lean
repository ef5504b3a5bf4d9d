import BufferBounds.Proofs.BoundOrder
import BufferBounds.Proofs.Hereditary

/-!
# Normal values

An interval is normal if it is spelled the way `Interval.between?` spells it: one word is a constant,
an interval has its ends in the right order, and one without a finite end is unknown. Every operation
keeps normal what is normal, and the buffers that are allocated have normal sizes. So all that
propagation ever finds is normal, and equal knowledge is equal data there.
-/

namespace BufferBounds

/-! ## Intervals -/

namespace Interval

/-- The interval is in the one spelling that intervals have. -/
def Normal : Interval → Prop
  | .constant _ => True
  | .range lo hi => lo < hi ∧ ¬ (lo = .negInf ∧ hi = .posInf)
  | .unknown => True

variable {i j : Interval} {lo hi : Bound}

theorem normal_unknown : unknown.Normal := trivial

theorem normal_of_between? (h : between? lo hi = some i) : i.Normal := by
  rw [between?.eq_def] at h
  split at h
  · cases h
  · rename_i hle
    split at h
    · split at h
      · obtain rfl := Option.some.inj h
        exact trivial
      · obtain rfl := Option.some.inj h
        exact trivial
    · rename_i hne
      split at h
      · obtain rfl := Option.some.inj h
        exact trivial
      · rename_i hends
        obtain rfl := Option.some.inj h
        exact ⟨lt_of_le_of_ne (not_lt.mp hle) hne, hends⟩

theorem normal_between?_getD (lo hi : Bound) : ((between? lo hi).getD .unknown).Normal := by
  cases h : between? lo hi with
  | none => exact trivial
  | some i => exact normal_of_between? h

theorem normal_add (i j : Interval) : (i.add j).Normal := by
  rw [add]
  split
  · split
    · exact normal_between?_getD ..
    · exact trivial
  · exact trivial

theorem normal_sub (i j : Interval) : (i.sub j).Normal := by
  rw [sub]
  split
  · split
    · exact normal_between?_getD ..
    · exact trivial
  · exact trivial

theorem normal_mul (i j : Interval) : (i.mul j).Normal := by
  cases i with
  | constant a =>
    cases j with
    | constant b =>
      rw [mul]
      cases word? (a.toInt * b.toInt) <;> exact trivial
    | range lo hi => exact trivial
    | unknown => exact trivial
  | range lo hi => exact trivial
  | unknown => exact trivial

theorem Normal.join (hi : i.Normal) (j : Interval) : (i.join j).Normal := by
  rw [Interval.join]
  split
  · exact hi
  · split
    · exact normal_between?_getD ..
    · exact trivial

theorem Normal.meet? (hi : i.Normal) {k : Interval} (h : i.meet? j = some k) : k.Normal := by
  rw [Interval.meet?] at h
  split at h
  · obtain rfl := Option.some.inj h
    exact trivial
  · exact Option.some.inj h ▸ hi
  · exact normal_of_between? h

end Interval

/-! ## Pointers and values -/

/-- The size of a tracked buffer is normal. -/
def Pointer.Normal : Pointer → Prop
  | .buffer _ size => size.Normal
  | .untracked => True

/-- The number, or the size of the buffer, is normal. -/
def Value.Normal : Value → Prop
  | .scalar i => i.Normal
  | .pointer p => p.Normal

theorem Pointer.Normal.join {p : Pointer} (hp : p.Normal) (q : Pointer) : (p.join q).Normal := by
  cases p with
  | buffer sites size =>
    cases q with
    | buffer sites' size' => exact Interval.Normal.join hp size'
    | untracked => exact trivial
  | untracked => exact trivial

namespace Value

variable {x : Value}

theorem normal_top : top.Normal := Interval.normal_unknown

theorem Normal.number (h : x.Normal) : x.number.Normal := by
  cases x with
  | scalar i => exact h
  | pointer p => exact trivial

theorem Normal.join (h : x.Normal) (y : Value) : (x.join y).Normal := by
  cases x with
  | scalar i =>
    cases y with
    | scalar j => exact Interval.Normal.join h j
    | pointer q => exact normal_top
  | pointer p =>
    cases y with
    | scalar j => exact normal_top
    | pointer q => exact Pointer.Normal.join h q

end Value

/-! ## Stores, expressions and buffers -/

namespace Store

/-- All values of the store are normal. -/
def Normal (s : Store) : Prop := ∀ var x, s.get? var = some x → x.Normal

variable {s : Store} {var : String}

theorem Normal.number (h : s.Normal) (var : String) : (s.number var).Normal := by
  rw [Store.number]
  split
  · rename_i x hx
    exact (h var x hx).number
  · exact trivial

end Store

variable {settings : Settings} {s t : Store}

theorem Expr.normal_number (hs : s.Normal) (e : Expr) : (e.number s).Normal := by
  induction e using Expr.number.induct with
  | case1 n => exact trivial
  | case2 name => exact hs.number name
  | case3 lhs rhs => exact Interval.normal_add ..
  | case4 lhs rhs => exact Interval.normal_sub ..
  | case5 thenArm elseArm ih => exact ih.join _
  | case6 callee args => exact trivial
  | case7 text => exact trivial

theorem Value.hereditary_normal : Hereditary Normal where
  top := normal_top
  untracked := trivial
  join _ y hx _ := hx.join y
  number _ e hs := Expr.normal_number hs e
  meet? _ _ _ hi h := Interval.Normal.meet? hi h

theorem Store.Normal.join (hs : s.Normal) (ht : t.Normal) : (s.join t).Normal :=
  Value.hereditary_normal.joinStore hs ht

theorem SizeLayout.normal_size {args : List Interval} (h : ∀ i ∈ args, i.Normal)
    (layout : SizeLayout) : (layout.size args).Normal := by
  cases layout with
  | single place =>
    rw [SizeLayout.size]
    cases hi : args[place]? with
    | none => exact trivial
    | some i => exact h i (List.mem_of_getElem? hi)
  | product place₁ place₂ =>
    rw [SizeLayout.size]
    split
    · exact Interval.normal_mul ..
    · exact trivial

theorem Statement.normal_of_allocation? {site : Site} {statement : Statement} (hs : s.Normal)
    {a : Allocation} (h : statement.allocation? settings site s = some a) : a.size.Normal := by
  rw [allocation?.eq_def] at h
  split at h
  · split at h
    · obtain rfl := Option.some.inj h
      refine SizeLayout.normal_size (fun i hi => ?_) _
      obtain ⟨e, -, rfl⟩ := List.mem_map.mp hi
      exact Expr.normal_number hs e
    · cases h
  · cases h

/-- All buffers that are allocated have normal sizes. -/
theorem supplies_normal (settings : Settings) (l : List (Site × Statement)) :
    Supplies settings Value.Normal l :=
  fun _ _ _ _ hs _ ha => Statement.normal_of_allocation? hs ha

/-! ## Propagation -/

theorem Flow.normal_of_mem_arriving {g : Flow} {exits : Table Store} {id : String}
    (h : ∀ (id : String) (s : Store), exits[id]? = some s → s.Normal)
    (ht : t ∈ g.arriving settings exits id) : t.Normal :=
  Value.hereditary_normal.arriving h ht

namespace Progress

variable {g : Flow} {p q : Progress g}

/-- All stores found so far are normal. -/
structure Normal (p : Progress g) : Prop where
  /-- those at the start of a block -/
  entry : ∀ (id : String) (s : Store), p.entries[id]? = some s → s.Normal
  /-- those at the end of a block -/
  exit : ∀ (id : String) (s : Store), p.exits[id]? = some s → s.Normal

theorem normal_iff : p.Normal ↔ p.All Value.Normal :=
  ⟨fun h => ⟨h.entry, h.exit⟩, fun h => ⟨h.entry, h.exit⟩⟩

namespace Normal

theorem start (g : Flow) : (Progress.start g).Normal :=
  normal_iff.mpr (All.start g Value.Normal)

theorem step (h : p.Normal) (hstep : Stepped settings p q) : q.Normal :=
  normal_iff.mpr <| (normal_iff.mp h).step Value.hereditary_normal hstep fun b _ _ =>
    supplies_normal settings b.located

theorem finish (g : Flow) (settings : Settings) :
    ((Progress.start g).finish settings).Normal :=
  finish_induction (fun _ _ h hstep => h.step hstep) (start g)

end Normal

end Progress

/-- What is recorded of an access is normal. -/
theorem Flow.normal_of_mem_accesses {g : Flow} {a : Access}
    (ha : a ∈ (g.propagate settings).accesses) :
    a.index.Normal ∧ ∀ p, a.pointer = some p → p.Normal :=
  all_of_mem_accesses ha Value.hereditary_normal (Progress.Normal.finish g settings).entry
    fun b _ _ => supplies_normal settings b.located

end BufferBounds
