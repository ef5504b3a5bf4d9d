import BufferBounds.Proofs.Joins

/-!
# What assignments store

An expression is evaluated as a number and as a value that may be a pointer, and a variable that holds
a pointer is copied in a way of its own. All three agree. Taking the number of a value commutes with
joins, so under any nesting of choices the number of the value is the number; and the pointer that is
copied is the value. So an assignment that allocates nothing stores the value of its expression, but
for one case: a variable that holds a pointer and is given a number holds an untracked pointer then.

`Store.assign_eq_bind` says so in one equation, from which all else that is proved of assignments
follows.
-/

namespace BufferBounds

variable {settings : Settings} {s : Store}

/-! ## Expressions -/

/-- Only a variable that holds a pointer is the source of one. -/
theorem Expr.eq_var_of_pointerSource? {e : Expr} {source : String}
    (h : e.pointerSource? s = some source) :
    e = .var source ∧ ∃ p, s.get? source = some (.pointer p) := by
  rw [pointerSource?.eq_def] at h
  split at h
  · split at h
    · rename_i name hpointer
      obtain rfl := Option.some.inj h
      obtain ⟨p, hp⟩ := Option.isSome_iff_exists.mp hpointer
      exact ⟨rfl, p, Store.pointer?_eq_some_iff.mp hp⟩
    · cases h
  · cases h

/-- The number of the value of an expression is its number. -/
theorem Expr.number_value (e : Expr) (s : Store) : (e.value s).number = e.number s := by
  fun_induction Expr.value s e with
  | case1 name =>
    rw [number, Store.number]
    cases s.get? name <;> rfl
  | case2 thenArm elseArm ihThen ihElse => rw [Value.number_join, ihThen, ihElse, number]
  | case3 e => rfl

/-! ## Assignments -/

namespace Store

/-- What is left in a variable that is given the value. One that held a pointer and is given a number
is taken to hold a pointer still. -/
def stored (s : Store) (target : String) (x : Value) : Value :=
  if x.pointer? = none ∧ (s.pointer? target).isSome then .pointer .untracked else x

theorem stored_pointer (s : Store) (target : String) (p : Pointer) :
    s.stored target (.pointer p) = .pointer p :=
  if_neg fun h => nomatch h.1

/-- The pointer that is copied is the value of the expression. -/
theorem copyPointer_eq_bind {value : Expr} {source : String}
    (h : value.pointerSource? s = some source) (target : String) :
    s.copyPointer target source = s.bind target (value.value s) := by
  obtain ⟨rfl, p, hp⟩ := Expr.eq_var_of_pointerSource? h
  rw [copyPointer, pointer?_eq_some_iff.mpr hp, Expr.value, hp]
  rfl

/-- An assignment is one binding. -/
theorem assign_eq_bind (s : Store) (target : String) (value : Expr) :
    s.assign target value = s.bind target (s.stored target (value.value s)) := by
  rw [assign]
  split
  · rename_i source hsource
    rw [copyPointer_eq_bind hsource]
    obtain ⟨rfl, p, hp⟩ := Expr.eq_var_of_pointerSource? hsource
    rw [Expr.value, hp, Option.getD_some, stored_pointer]
  · split
    · rename_i p hp
      rw [hp, stored_pointer]
    · rename_i i hi
      rw [hi, stored]
      split
      · rename_i hpointer
        rw [if_pos ⟨rfl, hpointer⟩, invalidate]
      · rename_i hpointer
        rw [if_neg fun h => hpointer h.2]

end Store

namespace Statement

variable {site : Site} {target callee : String} {args : List Expr} {value : Expr} {span : Span}

/-- A statement binds the variable that it assigns, and nothing else. -/
theorem after_cases (settings : Settings) (site : Site) (s : Store) (statement : Statement) :
    statement.target? = none ∧ statement.after settings site s = s ∨
      ∃ target x, statement.target? = some target ∧
        statement.after settings site s = s.bind target x := by
  cases statement with
  | assign target value span =>
    refine Or.inr ⟨target, ?_⟩
    rw [after.eq_def]
    split
    · rename_i a ha
      obtain rfl : target = a.pointer := Option.some.inj (target_of_allocation? ha)
      exact ⟨_, rfl, rfl⟩
    · rename_i heq
      cases heq
      exact ⟨_, rfl, s.assign_eq_bind target value⟩
    · rename_i hassign
      exact absurd rfl (hassign target value span)
  | access base index span => exact Or.inl ⟨rfl, rfl⟩
  | eval expr span => exact Or.inl ⟨rfl, rfl⟩

theorem after_allocate (h : settings.isAllocator callee = true) :
    (Statement.assign target (.call callee args) span).after settings site s =
      s.bind target
        (.pointer (.fresh site ((SizeLayout.ofCallee callee).size (args.map (·.number s))))) := by
  rw [after.eq_def]
  simp only [allocation?, if_pos h]
  rfl

theorem after_assign
    (h : ∀ callee args, value = .call callee args → settings.isAllocator callee = false) :
    (Statement.assign target value span).after settings site s = s.assign target value := by
  have hnone : (Statement.assign target value span).allocation? settings site s = none := by
    rw [allocation?.eq_def]
    split
    · rename_i callee args _ heq
      obtain ⟨rfl, rfl, rfl⟩ := heq
      rw [h callee args rfl]
      rfl
    · rfl
  rw [after.eq_def]
  simp only [hnone]

/-- **An assignment stores the value of its expression.** Taking the number commutes with joins, so the
number of this value is the number of the expression; and the pointer that is copied from a variable is
this value. So an assignment that takes no result of an allocator binds its target to the value, but to
an untracked pointer if a number is assigned to a variable that holds a pointer; and no other variable
is bound anew. -/
theorem assigns_value (settings : Settings) (site : Site) (s : Store) (target : String)
    (value : Expr) (span : Span) :
    (∀ x y : Value, (x.join y).number = x.number.join y.number) ∧
      (value.value s).number = value.number s ∧
      (∀ source, value.pointerSource? s = some source →
        s.copyPointer target source = s.bind target (value.value s)) ∧
      ((∀ callee args, value = .call callee args → settings.isAllocator callee = false) →
        let t := (Statement.assign target value span).after settings site s
        t = s.bind target
            (if (value.value s).pointer? = none ∧ (s.pointer? target).isSome then
              .pointer .untracked
            else value.value s) ∧
          ∀ var, var ≠ target → t.get? var = s.get? var) := by
  refine ⟨Value.number_join, value.number_value s, ?_, ?_⟩
  · intro source hsource
    exact Store.copyPointer_eq_bind hsource target
  · intro hcall t
    have ht : t = s.bind target (s.stored target (value.value s)) :=
      (after_assign hcall).trans (s.assign_eq_bind target value)
    refine ⟨ht, fun var hvar => ?_⟩
    rw [ht, Store.get?_bind, if_neg hvar.symm]

/-- A buffer that is copied is known as before, and nothing is known of what took its place. -/
theorem assigns_value_replaced :
    let buffer : Value := .pointer (.fresh ⟨"entry", 0, ⟨1, 1, 1, 18⟩⟩ (.constant 100))
    let s := Store.ofList [("buf", buffer), ("n", .scalar (.constant 3))]
    let either : Expr := .select (.var "buf") (.var "n")
    let call : Expr := .call "get_buffer" []
    let site : Site := ⟨"entry", 1, ⟨2, 1, 2, 18⟩⟩
    (Expr.var "buf").pointerSource? s = some "buf" ∧
      s.copyPointer "q" "buf" = s.bind "q" buffer ∧
      (∀ callee args, call = .call callee args →
        (default : Settings).isAllocator callee = false) ∧
      (Statement.assign "buf" call site.span).after default site s =
        s.bind "buf" (.pointer .untracked) ∧
      (∀ callee args, either = .call callee args →
        (default : Settings).isAllocator callee = false) ∧
      (Statement.assign "n" either site.span).after default site s = s.bind "n" .top := by
  intro buffer s either call site
  have hsource : (Expr.var "buf").pointerSource? s = some "buf" := by decide +kernel
  have hvalue : (Expr.var "buf").value s = buffer := by decide +kernel
  have hcall : ∀ callee args, call = .call callee args →
      (default : Settings).isAllocator callee = false := by
    intro callee args heq
    obtain ⟨rfl, -⟩ := Expr.call.inj heq
    decide
  have heither : ∀ callee args, either = .call callee args →
      (default : Settings).isAllocator callee = false := nofun
  obtain ⟨-, -, hcopied, -⟩ := assigns_value default site s "q" (.var "buf") site.span
  obtain ⟨-, -, -, hreplaced⟩ := assigns_value default site s "buf" call site.span
  obtain ⟨-, -, -, hmixed⟩ := assigns_value default site s "n" either site.span
  refine ⟨hsource, hvalue ▸ hcopied "buf" hsource, hcall, ?_, heither, ?_⟩
  · rw [(hreplaced hcall).1, if_pos (by decide +kernel)]
  · rw [(hmixed heither).1, if_neg (by decide +kernel)]
    exact congrArg (s.bind "n") (by decide +kernel)

end Statement

end BufferBounds
