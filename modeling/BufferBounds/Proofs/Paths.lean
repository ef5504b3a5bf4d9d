import BufferBounds.Proofs.AssignedValues
import BufferBounds.Proofs.Stability

/-!
# Paths through the statements

A path goes from point to point: past a statement to the next place of the block, or from the end of
a block along an edge. Which statements it may go past is a condition on the path, so that the paths
that do not assign a variable are paths too. An assignment reaches a point if such a path leads
there from behind it.

Along a path through one block the store is followed by `Block.storeAt`, and past a statement that
does not assign a variable its value stays.
-/

namespace BufferBounds

/-! ## Points and paths -/

/-- A point in a function: before the statement at a place of a block, or at the end of the block. -/
structure Point where
  /-- the block -/
  block : Block
  /-- how many statements of it lie before the point -/
  place : Nat

/-- The statement assigns another variable or none. -/
def Statement.Spares (var : String) (statement : Statement) : Prop := statement.target? ≠ some var

instance (var : String) (statement : Statement) : Decidable (statement.Spares var) :=
  inferInstanceAs (Decidable (statement.target? ≠ some var))

namespace Flow

variable {g : Flow} {allowed : Statement → Prop} {var : String} {x y : Point}

/-- One move, past an allowed statement or along an edge. -/
inductive Move (g : Flow) (allowed : Statement → Prop) : Point → Point → Prop where
  /-- past a statement -/
  | statement {b : Block} {place : Nat} {statement : Statement}
      (hplace : b.statements[place]? = some statement) (hallowed : allowed statement) :
      Move g allowed ⟨b, place⟩ ⟨b, place + 1⟩
  /-- along an edge -/
  | edge {b c : Block} (hc : c ∈ g.function.blocks) (ht : c.id ∈ b.terminator.targets) :
      Move g allowed ⟨b, b.statements.length⟩ ⟨c, 0⟩

/-- A path with allowed statements only. -/
def Path (g : Flow) (allowed : Statement → Prop) : Point → Point → Prop :=
  Relation.ReflTransGen (g.Move allowed)

/-- A path with allowed statements only leads there from the entry. -/
def FromEntry (g : Flow) (allowed : Statement → Prop) (x : Point) : Prop :=
  ∃ b ∈ g.function.blocks, b.id = g.function.entry ∧ g.Path allowed ⟨b, 0⟩ x

/-- The statement at this place of the block assigns the variable, a path from the entry leads to it,
and one that does not assign the variable again leads from behind it to the point. -/
structure Assigns (g : Flow) (var : String) (x : Point) (b : Block) (place : Nat) : Prop where
  /-- a path from the entry leads to the assignment -/
  from_entry : g.FromEntry (fun _ => True) ⟨b, place⟩
  /-- it is an assignment to the variable -/
  target : ∃ statement, b.statements[place]? = some statement ∧ statement.target? = some var
  /-- a path leads on to the point -/
  path : g.Path (Statement.Spares var) ⟨b, place + 1⟩ x

theorem FromEntry.tail (h : g.FromEntry allowed x) (hmove : g.Move allowed x y) :
    g.FromEntry allowed y := by
  obtain ⟨b, hb, hentry, hpath⟩ := h
  exact ⟨b, hb, hentry, Relation.ReflTransGen.tail hpath hmove⟩

/-- A path from the entry stays in blocks that can be reached. -/
theorem FromEntry.mem_order (h : g.FromEntry allowed x) : x.block ∈ g.order := by
  obtain ⟨b, hb, hentry, hpath⟩ := h
  induction hpath with
  | refl => exact mem_order_iff.mpr ⟨hb, hentry ▸ Relation.ReflTransGen.refl⟩
  | tail _ hmove ih =>
    cases hmove with
    | statement hplace hallowed => exact ih
    | edge hc ht =>
      have hreach := (mem_order_iff.mp ih).2
      exact mem_order_iff.mpr ⟨hc, hreach.tail ⟨_, block?_of_mem_order ih, ht⟩⟩

/-- Within a block a path leads to every further place. -/
theorem FromEntry.place {b : Block} (h : g.FromEntry (fun _ => True) ⟨b, 0⟩) {place : Nat}
    (hplace : place ≤ b.statements.length) : g.FromEntry (fun _ => True) ⟨b, place⟩ := by
  induction place with
  | zero => exact h
  | succ place ih =>
    have hlt : place < b.statements.length := hplace
    exact (ih (Nat.le_of_lt hlt)).tail (.statement (List.getElem?_eq_getElem hlt) trivial)

/-- To every block that can be reached a path leads from the entry. -/
theorem fromEntry_of_mem_order {b : Block} (hb : b ∈ g.order) :
    g.FromEntry (fun _ => True) ⟨b, 0⟩ := by
  obtain ⟨hblock, hreach⟩ := mem_order_iff.mp hb
  generalize hid : b.id = id at hreach
  induction hreach generalizing b with
  | refl => exact ⟨b, hblock, hid, Relation.ReflTransGen.refl⟩
  | @tail source target hpath hedge ih =>
    obtain ⟨c, hc, ht⟩ := hedge
    obtain ⟨hmem, rfl⟩ := Function.mem_blocks_of_block? hc
    have hstart := ih (mem_order_iff.mpr ⟨hmem, hpath⟩) hmem rfl
    exact (hstart.place (Nat.le_refl _)).tail (.edge hblock (hid ▸ ht))

/-- An assignment that reaches a point reaches what a sparing move leads to from there. -/
theorem Assigns.tail {b : Block} {place : Nat} (h : g.Assigns var x b place)
    (hmove : g.Move (Statement.Spares var) x y) : g.Assigns var y b place :=
  ⟨h.from_entry, h.target, Relation.ReflTransGen.tail h.path hmove⟩

end Flow

/-! ## Stores within a block -/

/-- A statement changes no variable but the one that it assigns. -/
theorem Statement.get?_after_of_spares {settings : Settings} {site : Site} {s : Store}
    {statement : Statement} {var : String} (h : statement.Spares var) :
    (statement.after settings site s).get? var = s.get? var := by
  obtain ⟨-, hsame⟩ | ⟨target, x, htarget, hbind⟩ := after_cases settings site s statement
  · rw [hsame]
  · rw [hbind, Store.get?_bind, if_neg]
    rintro rfl
    exact h htarget

theorem Store.mem_bind_self (s : Store) (var : String) (value : Value) : var ∈ s.bind var value := by
  rw [mem_iff_isSome_get?, get?_bind, if_pos rfl]
  rfl

/-- The variable that a statement assigns has a value then. -/
theorem Statement.mem_after {settings : Settings} {site : Site} {s : Store} {statement : Statement}
    {var : String} (h : statement.target? = some var) : var ∈ statement.after settings site s := by
  obtain ⟨hnone, -⟩ | ⟨target, x, htarget, hbind⟩ := after_cases settings site s statement
  · cases hnone.symm.trans h
  · obtain rfl := Option.some.inj (htarget.symm.trans h)
    rw [hbind]
    exact Store.mem_bind_self ..

namespace Block

variable {settings : Settings} {b : Block} {entry : Store}

/-- The store at a place of a block that is entered in `entry`. -/
def storeAt (settings : Settings) (b : Block) (entry : Store) (place : Nat) : Store :=
  (b.located.take place).foldl (fun s (site, statement) => statement.after settings site s) entry

theorem storeAt_zero : b.storeAt settings entry 0 = entry := rfl

theorem length_located : b.located.length = b.statements.length := by
  rw [located, List.length_map, List.length_zipIdx]

/-- At the end of a block stands its exit store. -/
theorem storeAt_length :
    b.storeAt settings entry b.statements.length = b.transfer settings entry := by
  rw [storeAt, ← length_located, List.take_length]
  rfl

theorem getElem?_located {place : Nat} {statement : Statement}
    (h : b.statements[place]? = some statement) :
    b.located[place]? = some (⟨b.id, place, statement.span⟩, statement) := by
  rw [located, List.getElem?_map, List.getElem?_zipIdx, h]
  simp

theorem storeAt_succ {place : Nat} {statement : Statement}
    (h : b.statements[place]? = some statement) :
    b.storeAt settings entry (place + 1) =
      statement.after settings ⟨b.id, place, statement.span⟩ (b.storeAt settings entry place) := by
  rw [storeAt, storeAt, List.take_add_one, getElem?_located h, Option.toList_some, List.foldl_append]
  rfl

/-- The trace of a block shows each statement with the store at its place. -/
theorem getElem?_traceFrom (l : List (Site × Statement)) (s : Store) (place : Nat) :
    (traceFrom settings s l)[place]? = l[place]?.map fun (site, statement) =>
      (site, statement, (l.take place).foldl
        (fun s (site, statement) => statement.after settings site s) s) := by
  induction l generalizing s place with
  | nil => rfl
  | cons p l ih =>
    cases place with
    | zero => rfl
    | succ place =>
      rw [traceFrom, List.getElem?_cons_succ, ih, List.getElem?_cons_succ]
      rfl

theorem getElem?_trace {place : Nat} {statement : Statement}
    (h : b.statements[place]? = some statement) :
    (b.trace settings entry)[place]? =
      some (⟨b.id, place, statement.span⟩, statement, b.storeAt settings entry place) := by
  rw [trace, getElem?_traceFrom, getElem?_located h]
  rfl

end Block

end BufferBounds
