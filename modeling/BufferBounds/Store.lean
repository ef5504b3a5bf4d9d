import BufferBounds.Value

/-!
# Stores

What the variables hold at one point of a function. A variable without an entry has not been
assigned on any path that leads there: reading it gives an unknown value, and joining with a store
that has one keeps that one.
-/

namespace BufferBounds

/-- The values of the variables assigned so far. -/
structure Store where
  /-- variable to value -/
  values : Table Value
  deriving DecidableEq

namespace Store

instance : EmptyCollection Store := ⟨⟨∅⟩⟩

instance : Inhabited Store := ⟨∅⟩

/-! ## Reading and writing -/

/-- The value of a variable, if it was assigned. -/
def get? (s : Store) (var : String) : Option Value := s.values[var]?

/-- A variable belongs to a store that has a value for it. -/
instance : Membership String Store := ⟨fun s var => var ∈ s.values⟩

instance (var : String) (s : Store) : Decidable (var ∈ s) :=
  inferInstanceAs (Decidable (var ∈ s.values))

/-- The number a variable holds. -/
def number (s : Store) (var : String) : Interval :=
  match s.get? var with
  | some value => value.number
  | none => .unknown

/-- The pointer a variable holds, if it holds one. -/
def pointer? (s : Store) (var : String) : Option Pointer :=
  (s.get? var).bind Value.pointer?

/-- Assigns `value` to a variable. -/
def bind (s : Store) (var : String) (value : Value) : Store :=
  ⟨s.values.insert var value⟩

/-- How many variables have a value. -/
def size (s : Store) : Nat := s.values.size

/-- The variables that have a value, by code point. -/
def vars (s : Store) : List String := s.values.keys

/-- Every variable with its value, by code point of the variable. -/
def toList (s : Store) : List (String × Value) := s.values.toList

/-- The store with these entries; of two for one variable the later counts. -/
def ofList (entries : List (String × Value)) : Store :=
  ⟨Std.ExtTreeMap.ofList entries⟩

/-! ## Joining and widening -/

/-- What the variables hold on reaching a point from either of two others. -/
def join (s t : Store) : Store :=
  ⟨Table.join Value.join s.values t.values⟩

/-- The variables whose value in `t` is not the one in `s`, those of `s` first. -/
def changed (s t : Store) : List String :=
  s.vars.filter (fun var => t.get? var ≠ s.get? var) ++ t.vars.filter (fun var => ¬ var ∈ s)

/-- Forgets all but the kind of the given variables. -/
def widen (s : Store) (vars : List String) : Store :=
  vars.foldl (fun s var => ⟨s.values.modify var Value.widened⟩) s

/-- The join of all the stores, if there are any. -/
def joinAll? : List Store → Option Store
  | [] => none
  | s :: ss => some (ss.foldl join s)

/-! ## Text -/

/-- The entries in braces, by code point of the variable. -/
protected def toString (s : Store) : String :=
  let entries := s.toList.map fun (var, value) => s!"{var}: {value}"
  "\x7b" ++ ", ".intercalate entries ++ "\x7d"

instance : ToString Store := ⟨Store.toString⟩

/-! ## Each operation through `get?` -/

@[ext] theorem ext_get? {s t : Store} (h : ∀ var, s.get? var = t.get? var) : s = t :=
  congrArg Store.mk (Std.ExtTreeMap.ext_getElem? h)

theorem mem_iff_isSome_get? {s : Store} {var : String} : var ∈ s ↔ (s.get? var).isSome :=
  Std.ExtTreeMap.mem_iff_isSome_getElem?

@[simp] theorem get?_empty (var : String) : (∅ : Store).get? var = none :=
  Std.ExtTreeMap.getElem?_empty

theorem get?_bind (s : Store) (var var' : String) (value : Value) :
    (s.bind var value).get? var' = if var = var' then some value else s.get? var' := by
  unfold get? bind
  rw [Std.ExtTreeMap.getElem?_insert]
  simp only [Std.LawfulEqCmp.compare_eq_iff_eq]

theorem get?_bind_self (s : Store) (var : String) (x : Value) :
    (s.bind var x).get? var = some x := by
  rw [get?_bind, if_pos rfl]

theorem pointer?_eq_some_iff {s : Store} {var : String} {p : Pointer} :
    s.pointer? var = some p ↔ s.get? var = some (.pointer p) := by
  rw [pointer?]
  cases h : s.get? var with
  | none => simp
  | some x => cases x <;> simp [Value.pointer?]

@[simp] theorem get?_join (s t : Store) (var : String) :
    (s.join t).get? var = Table.joinEntry Value.join (s.get? var) (t.get? var) :=
  Table.getElem?_join _ _ _ _

theorem get?_join_eq_none_iff {s t : Store} {var : String} :
    (s.join t).get? var = none ↔ s.get? var = none ∧ t.get? var = none := by
  rw [get?_join]
  cases s.get? var <;> cases t.get? var <;> simp [Table.joinEntry]

theorem get?_widen (s : Store) (vars : List String) (var : String) :
    (s.widen vars).get? var =
      if var ∈ vars then (s.get? var).map Value.widened else s.get? var := by
  induction vars generalizing s with
  | nil => rfl
  | cons v vars ih =>
    rw [widen, List.foldl_cons, ← widen, ih]
    unfold get?
    rw [Std.ExtTreeMap.getElem?_modify]
    simp only [Std.LawfulEqCmp.compare_eq_iff_eq, List.mem_cons]
    by_cases hv : v = var
    · subst hv
      cases s.values[v]? with
      | none => simp
      | some x => cases x <;> simp [Value.widened]
    · simp [hv, Ne.symm hv]

/-- A variable has changed exactly if its value has. -/
theorem mem_changed_iff {s t : Store} {var : String} :
    var ∈ s.changed t ↔ s.get? var ≠ t.get? var := by
  unfold changed vars
  simp only [List.mem_append, List.mem_filter, Std.ExtTreeMap.mem_keys, decide_eq_true_eq]
  change (var ∈ s ∧ _) ∨ (var ∈ t ∧ _) ↔ _
  rw [mem_iff_isSome_get?, mem_iff_isSome_get?]
  cases s.get? var <;> cases t.get? var <;> simp [eq_comm]

end Store

end BufferBounds
