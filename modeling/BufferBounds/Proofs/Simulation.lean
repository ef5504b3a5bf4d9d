import BufferBounds.Proofs.Descriptions

/-!
# Steps that stores follow

What a run does in a memory, the propagation does in a store that describes it: the value of an
expression is described by the expression's value in the store, and the memory after a statement or
an edge by the store after it. An edge that a run takes is never found to be impossible.
-/

namespace BufferBounds

variable {settings : Settings} {s : Store} {vars : List String} {m m' : Memory}

/-! ## Expressions -/

namespace Expr.Evaluates

variable {e : Expr} {d : Content}

/-- What the expression is. The induction is on how it was evaluated; sums and differences are taken of
the numbers of what is below them. -/
theorem describes_value (h : e.Evaluates m d) (hs : s.Describes vars m) :
    (e.value s).Describes d := by
  induction h with
  | const n => exact Interval.mem_constant.mpr rfl
  | var hd => exact hs.getD_top hd
  | add _ _ hout ihl ihr =>
    have hl := ihl.number
    have hr := ihr.number
    rw [Expr.number_value] at hl hr
    exact hl.add hr hout
  | sub _ _ hout ihl ihr =>
    have hl := ihl.number
    have hr := ihr.number
    rw [Expr.number_value] at hl hr
    exact hl.sub hr hout
  | selectThen _ ih => exact ih.join_left _
  | selectElse _ ih => exact ih.join_right _
  | call callee args d => exact Interval.describes_unknown d
  | unmodeled text d => exact Interval.describes_unknown d

/-- What the expression is, taken as a number. -/
theorem describes_number (h : e.Evaluates m d) (hs : s.Describes vars m) :
    (e.number s).Describes d := by
  rw [← Expr.number_value]
  exact (h.describes_value hs).number

end Expr.Evaluates

/-! ## Statements -/

/-- The size that an allocator makes lies in the interval that is found for it. -/
theorem SizeLayout.Requests.mem_size {layout : SizeLayout} {args : List Expr} {size : Int64}
    (h : layout.Requests m args size) (hs : s.Describes vars m) :
    size.toInt ∈ layout.size (args.map (·.number s)) := by
  cases layout with
  | single place =>
    rw [Requests] at h
    rw [SizeLayout.size, List.getElem?_map]
    cases he : args[place]? with
    | none => exact Interval.mem_unknown
    | some e =>
      rw [he] at h
      obtain ⟨x, hx, hsize⟩ := h
      exact (hx.describes_number hs).mem_of_number hsize
  | product place₁ place₂ =>
    rw [Requests] at h
    rw [SizeLayout.size, List.getElem?_map, List.getElem?_map]
    cases he₁ : args[place₁]? with
    | none => exact Interval.mem_unknown
    | some e₁ =>
      cases he₂ : args[place₂]? with
      | none => exact Interval.mem_unknown
      | some e₂ =>
        rw [he₁, he₂] at h
        obtain ⟨x, y, hx, hy, hsize⟩ := h
        exact (hx.describes_number hs).mem_mul (hy.describes_number hs) hsize

namespace Store.Describes

theorem assign {target : String} {value : Expr} {d : Content} (hs : s.Describes vars m)
    (h : value.Evaluates m d) : (s.assign target value).Describes vars (m.set target d) := by
  rw [assign_eq_bind, stored]
  split
  · exact hs.bind (x := .pointer .untracked) trivial
  · exact hs.bind (h.describes_value hs)

end Store.Describes

/-- The memory after a statement is described by the store after it. -/
theorem Statement.Runs.describes_after {statement : Statement} {site : Site}
    (h : statement.Runs settings site m m') (hs : s.Describes vars m) :
    (statement.after settings site s).Describes vars m' := by
  cases h with
  | @allocate target callee args span size hcallee hsize =>
    rw [after_allocate hcallee]
    exact hs.bind (Pointer.describes_fresh (hsize.mem_size hs))
  | @assign target value span d hvalue h =>
    rw [after_assign hvalue]
    exact hs.assign h
  | access => exact hs
  | eval => exact hs

/-! ## Edges -/

/-- Where a comparison holds there is a store left, which describes the memory still. -/
theorem Store.Describes.assume? {var : String} {op : Comparison} {value : Interval} {x y : Content}
    (hs : s.Describes vars m) (hx : m var = some x) (hy : value.Describes y)
    (h : ∀ a b, x = .number a → y = .number b → op.Holds a.toInt b.toInt) :
    ∃ t, s.assume? var op value = some t ∧ t.Describes vars m := by
  obtain hself | ⟨current, lo, hi, hget, hcurrent, hbounds⟩ := assume?_eq_self_or s var op value
  · exact ⟨s, hself, hs⟩
  · -- both sides are numbers, as something is known of them
    have hvalue : value ≠ .unknown := by
      rintro rfl
      cases hbounds
    obtain ⟨a, rfl, ha⟩ := Interval.Describes.exists_number (hs.value var x _ hx hget) hcurrent
    obtain ⟨b, rfl, hb⟩ := hy.exists_number hvalue
    have hholds := h a b rfl rfl
    obtain ⟨t, ht, rfl | ⟨i, hi, rfl⟩⟩ := exists_assume?_of_holds hget hcurrent hbounds ha hb hholds
      (Interval.not_beyondWords hbounds hb hholds)
    · exact ⟨_, ht, hs⟩
    · exact ⟨_, ht, hs.rebind hx hi⟩

namespace Block

variable {b : Block} {c : Condition}

theorem along?_whenTrue (hnarrow : settings.branchNarrowing = true)
    (hc : b.terminator.condition? = some c) :
    b.along? settings .whenTrue s = s.assume? c.var c.op (c.value.number s) := by
  rw [along?.eq_def, if_pos hnarrow]
  simp only [hc]

theorem along?_whenFalse (hnarrow : settings.branchNarrowing = true)
    (hc : b.terminator.condition? = some c) :
    b.along? settings .whenFalse s = s.assume? c.var c.op.negate (c.value.number s) := by
  rw [along?.eq_def, if_pos hnarrow]
  simp only [hc]

theorem along?_jump : b.along? settings .jump s = some s := by
  rw [along?.eq_def]
  split
  · split
    · cases ‹EdgeKind.jump = _›
    · cases ‹EdgeKind.jump = _›
    · rfl
  · rfl

end Block

/-- An edge that a run takes lets a store through that describes the memory. -/
theorem Terminator.Takes.describes_along {b : Block} {target : String} {kind : EdgeKind}
    (h : b.terminator.Takes m target kind) (hs : s.Describes vars m) :
    ∃ t, b.along? settings kind s = some t ∧ t.Describes vars m := by
  rw [Block.along?.eq_def]
  split
  · split
    · rename_i c hc
      obtain ⟨x, y, hx, hy, hholds⟩ := h.2 c hc
      exact hs.assume? hx (hy.describes_number hs) fun a b ha hb => (hholds a b ha hb).mp rfl
    · rename_i c hc
      obtain ⟨x, y, hx, hy, hholds⟩ := h.2 c hc
      refine hs.assume? hx (hy.describes_number hs) fun a b ha hb => Comparison.holds_negate.mpr ?_
      intro hop
      cases (hholds a b ha hb).mpr hop
    · exact ⟨s, rfl, hs⟩
  · exact ⟨s, rfl, hs⟩

end BufferBounds
