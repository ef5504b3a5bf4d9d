import BufferBounds.Proofs.PostOrder
import BufferBounds.Proofs.Stretches
import BufferBounds.Proofs.Undetermined

/-!
# Counting loops

A loop counts from zero up to a bound and indexes a buffer with its counter. All stores that arise in
it differ in what is known of the counter only, and that is a stretch of words from zero, or one of
words from one where the counter was just raised, or nothing. Here it is said what the blocks of the
loop and the edges between them make of such a store. A `CountingLoop` is such a loop together with
the settings it is analysed with: `malloc` is an allocator, and conditions narrow.
-/

namespace BufferBounds

/-! ## Stores that differ in one variable -/

namespace Store

variable {s : Store} {var : String} {x y : Value}

theorem bind_bind : (s.bind var x).bind var y = s.bind var y := by
  ext1 var'
  rw [get?_bind, get?_bind, get?_bind]
  split <;> rfl

theorem bind_join_bind : (s.bind var x).join (s.bind var y) = s.bind var (x.join y) := by
  ext1 var'
  rw [get?_join, get?_bind, get?_bind, get?_bind]
  split
  · rfl
  · cases s.get? var' with
    | none => rfl
    | some z => exact congrArg some (Value.join_self z)

/-- Only this one variable is widened. -/
theorem bind_widen_changed (h : x ≠ y) :
    (s.bind var y).widen ((s.bind var x).changed (s.bind var y)) = s.bind var y.widened := by
  ext1 var'
  simp only [get?_widen, mem_changed_iff, get?_bind]
  by_cases hvar : var = var'
  · simp [hvar, h]
  · simp [hvar]

end Store

/-- A number is assigned to a variable that holds no pointer. -/
theorem Statement.after_number {settings : Settings} {site : Site} {s : Store} {target : String}
    {value : Expr} {span : Span} {i : Interval} (hvalue : value.value s = .scalar i)
    (hcall : ∀ callee args, value ≠ .call callee args) (hpointer : s.pointer? target = none) :
    (Statement.assign target value span).after settings site s = s.bind target (.scalar i) := by
  rw [after_assign fun callee args heq => absurd heq (hcall callee args), Store.assign_eq_bind,
    hvalue, Store.stored, hpointer]
  rfl

/-! ## The function -/

namespace CountingLoop

/-- Allocates the buffer and starts to count. -/
def entry (capacity : Int64) : Block where
  id := "entry"
  statements :=
    [ .assign "buf" (.call "malloc" [.const capacity]) ⟨1, 4, 1, 4⟩,
      .assign "i" (.const 0) ⟨2, 4, 2, 4⟩ ]
  terminator := .goto "head"

/-- Tells whether to go round once more. -/
def head (bound : Int64) : Block where
  id := "head"
  statements := []
  terminator := .branch (some ⟨"i", .lt, .const bound⟩) "body" "exit"

/-- Uses an element and counts on. -/
def body : Block where
  id := "body"
  statements :=
    [ .access "buf" (.var "i") ⟨3, 8, 3, 8⟩,
      .assign "i" (.add (.var "i") (.const 1)) ⟨4, 8, 4, 8⟩ ]
  terminator := .goto "head"

/-- Leaves the function. -/
def exit : Block where
  id := "exit"
  statements := []
  terminator := .exit

end CountingLoop

open CountingLoop in
/-- `buf = malloc(capacity); for (i = 0; i < bound; i++) buf[i];` -/
def Function.countingLoop (name : String) (capacity bound : Int64) : Function :=
  { name
    entry := "entry"
    blocks := [CountingLoop.entry capacity, head bound, body, exit] }

/-- A counting loop, and settings to analyse it with. -/
structure CountingLoop where
  /-- the name of the function -/
  name : String
  /-- the size of the buffer -/
  capacity : Int64
  /-- what the counter goes up to -/
  bound : Int64
  /-- the settings -/
  settings : Settings
  /-- the body is run at least once -/
  one_le_bound : 1 ≤ bound.toInt
  /-- conditions narrow -/
  narrows : settings.branchNarrowing = true
  /-- the buffer is tracked -/
  allocates : settings.isAllocator "malloc" = true

namespace CountingLoop

theorem visitOrder_eq (name : String) (capacity bound : Int64) :
    (Function.countingLoop name capacity bound).visitOrder =
      [entry capacity, head bound, exit, body] := by
  have hexit : (Function.countingLoop name capacity bound).DepthFirst ["body", "head", "entry"]
      ["exit"] ["exit", "body", "head", "entry"] ([] ++ [exit]) :=
    .visit (by decide) rfl .nil .nil
  have hbody : (Function.countingLoop name capacity bound).DepthFirst ["head", "entry"]
      ["body", "exit"] ["exit", "body", "head", "entry"] ([] ++ body :: [exit]) :=
    .visit (by decide) rfl (.skip (by decide) .nil) hexit
  have hhead : (Function.countingLoop name capacity bound).DepthFirst ["entry"] ["head"]
      ["exit", "body", "head", "entry"] ([body, exit] ++ [head bound]) :=
    .visit (by decide) rfl hbody .nil
  have hentry : (Function.countingLoop name capacity bound).DepthFirst [] ["entry"]
      ["exit", "body", "head", "entry"] ([body, exit, head bound] ++ [entry capacity]) :=
    .visit (by decide) rfl hhead .nil
  have hsearch := hentry.search_eq [] []
  rw [Function.search] at hsearch
  exact hsearch

variable (l : CountingLoop)

/-- The flow graph of the loop. The exit is visited before the body. -/
def flow : Flow where
  function := .countingLoop l.name l.capacity l.bound
  wellFormed := (Function.fault?_eq_none_iff _).mp rfl
  order := [entry l.capacity, head l.bound, exit, body]
  order_eq := (visitOrder_eq l.name l.capacity l.bound).symm

/-! ## Stores -/

/-- The store where `i` is known to be this, and `buf` points to the buffer. -/
def store (i : Interval) : Store :=
  ((∅ : Store).bind "buf"
    (.pointer (.fresh ⟨"entry", 0, ⟨1, 4, 1, 4⟩⟩ (.constant l.capacity)))).bind "i" (.scalar i)

variable {l} {i j : Interval} {k m : Nat}

theorem store_get?_i : (l.store i).get? "i" = some (.scalar i) := Store.get?_bind_self ..

theorem store_number_i : (l.store i).number "i" = i := by
  rw [Store.number, store_get?_i]
  rfl

theorem store_pointer?_i : (l.store i).pointer? "i" = none := by
  rw [Store.pointer?, store_get?_i]
  rfl

theorem store_pointer?_buf : (l.store i).pointer? "buf" =
    some (.fresh ⟨"entry", 0, ⟨1, 4, 1, 4⟩⟩ (.constant l.capacity)) := by
  rw [Store.pointer?, store, Store.get?_bind, if_neg (by decide), Store.get?_bind_self]
  rfl

theorem store_inj : l.store i = l.store j ↔ i = j := by
  refine ⟨fun heq => ?_, congrArg _⟩
  have hget : (l.store i).get? "i" = (l.store j).get? "i" := by rw [heq]
  rw [store_get?_i, store_get?_i] at hget
  exact Value.scalar.inj (Option.some.inj hget)

theorem store_bind_i : (l.store i).bind "i" (.scalar j) = l.store j := Store.bind_bind ..

theorem store_join : (l.store i).join (l.store j) = l.store (i.join j) := Store.bind_join_bind ..

theorem store_widen (h : i ≠ j) :
    (l.store j).widen ((l.store i).changed (l.store j)) = l.store .unknown :=
  Store.bind_widen_changed fun heq => h (Value.scalar.inj heq)

/-! ## Blocks -/

theorem transfer_entry : (entry l.capacity).transfer l.settings ∅ = l.store (.constant 0) := by
  have htransfer : (entry l.capacity).transfer l.settings ∅ =
      Statement.after l.settings ⟨"entry", 1, ⟨2, 4, 2, 4⟩⟩
        (Statement.after l.settings ⟨"entry", 0, ⟨1, 4, 1, 4⟩⟩ ∅
          (.assign "buf" (.call "malloc" [.const l.capacity]) ⟨1, 4, 1, 4⟩))
        (.assign "i" (.const 0) ⟨2, 4, 2, 4⟩) := rfl
  rw [htransfer, Statement.after_allocate l.allocates]
  exact Statement.after_number rfl nofun (by simp [Store.pointer?, Store.get?_bind])

/-- The head leaves a store as it is. -/
theorem transfer_head (s : Store) : (head l.bound).transfer l.settings s = s := rfl

theorem transfer_body :
    body.transfer l.settings (l.store i) = l.store (i.add (.constant 1)) := by
  have htransfer : body.transfer l.settings (l.store i) =
      Statement.after l.settings ⟨"body", 1, ⟨4, 8, 4, 8⟩⟩ (l.store i)
        (.assign "i" (.add (.var "i") (.const 1)) ⟨4, 8, 4, 8⟩) := rfl
  have hvalue : (Expr.add (.var "i") (.const 1)).value (l.store i) =
      .scalar (i.add (.constant 1)) :=
    congrArg (fun counter : Interval => Value.scalar (counter.add (.constant 1))) store_number_i
  rw [htransfer]
  exact (Statement.after_number hvalue nofun store_pointer?_i).trans store_bind_i

/-- The access in the body, with what is known of the counter there. -/
def access (l : CountingLoop) (i : Interval) : Access where
  function := l.name
  base := "buf"
  pointer := some (.fresh ⟨"entry", 0, ⟨1, 4, 1, 4⟩⟩ (.constant l.capacity))
  index := i
  span := ⟨3, 8, 3, 8⟩

theorem accesses_body : body.accesses l.settings l.name (l.store i) = [l.access i] := by
  have hseen : body.accesses l.settings l.name (l.store i) =
      [{ l.access ((l.store i).number "i") with pointer := (l.store i).pointer? "buf" }] := rfl
  rw [hseen, store_number_i, store_pointer?_buf]
  rfl

/-! ## Counting

Whatever the counter comes to is at most the bound, so all sums are words. -/

open BufferBounds.Interval

theorem words_zero (hk : k ≤ l.bound.toInt) : Words 0 k :=
  .of_le (Int.le_refl 0) (Int.natCast_nonneg k) hk

theorem words_one (hk : k < l.bound.toInt) : Words 1 (k + 1) :=
  .of_le (w := l.bound) (by decide) (by omega) (by omega)

theorem stretch_zero : stretch 0 0 = .constant 0 := stretch_self 0

theorem stretch_add_one (hk : k < l.bound.toInt) :
    (stretch 0 k).add (.constant 1) = stretch 1 (k + 1) := by
  have hone : (1 : Int64).toInt = 1 := rfl
  have hmoved : Words (0 + (1 : Int64).toInt) (k + (1 : Int64).toInt) := by
    rw [hone, Int.zero_add]
    exact words_one hk
  rw [stretch_add (words_zero hk.le) hmoved, hone, Int.zero_add]

/-- From zero, or one more than up to `k`: that is up to one more than `k`. -/
theorem zero_join_stretch_add_one (hk : k < l.bound.toInt) :
    (Interval.constant 0).join ((stretch 0 k).add (.constant 1)) = stretch 0 (k + 1 : Nat) := by
  have hzero : Words 0 0 := .of_le (w := 0) (Int.le_refl 0) (Int.le_refl 0) (Int.le_refl 0)
  rw [stretch_add_one hk, ← stretch_zero, stretch_join hzero (words_one hk),
    Int.min_eq_left (by decide), Int.max_eq_right (by omega), Int.natCast_succ]

theorem stretch_join_of_le (hm : m ≤ k) (hk : k ≤ l.bound.toInt) :
    (stretch 0 m).join (stretch 0 k) = stretch 0 k := by
  have hm' : m ≤ l.bound.toInt := by omega
  rw [stretch_join (words_zero hm') (words_zero hk), Int.min_self, Int.max_eq_right (by omega)]

theorem stretch_ne (hm : m < k) (hk : k ≤ l.bound.toInt) : stretch 0 m ≠ stretch 0 k := by
  have hm' : m ≤ l.bound.toInt := by omega
  rw [Ne, stretch_inj (words_zero hm') (words_zero hk)]
  omega

theorem stretch_add_one_ne (hm : m < k) (hk : k < l.bound.toInt) :
    (stretch 0 m).add (.constant 1) ≠ (stretch 0 k).add (.constant 1) := by
  have hm' : m < l.bound.toInt := by omega
  rw [stretch_add_one hm', stretch_add_one hk, Ne, stretch_inj (words_one hm') (words_one hk)]
  omega

/-! ## Edges -/

/-- What is known of the counter in the body, if it is known to go up to `k` at the head. -/
theorem assume?_lt (hk : k ≤ l.bound.toInt) :
    (l.store (stretch 0 k)).assume? "i" .lt (.constant l.bound) =
      some (l.store (stretch 0 (min k (l.bound.toInt - 1)))) := by
  have hbound := l.one_le_bound
  have hop : Comparison.lt ≠ .neq := nofun
  have hleft : Words 0 (min k (l.bound.toInt - 1)) :=
    .of_le (Int.le_refl 0) (by omega) (Int.le_trans (Int.min_le_left ..) hk)
  rw [Store.assume?_stretch store_get?_i (words_zero hk) hop hleft, store_bind_i]
  intro z
  simp only [Comparison.Holds]
  omega

theorem assume?_lt_of_lt (hk : k < l.bound.toInt) :
    (l.store (stretch 0 k)).assume? "i" .lt (.constant l.bound) = some (l.store (stretch 0 k)) := by
  rw [assume?_lt hk.le, Int.min_eq_left (by omega)]

/-- The loop is not left before the counter may have come to the bound. -/
theorem assume?_ge_of_lt (hk : k < l.bound.toInt) :
    (l.store (stretch 0 k)).assume? "i" .ge (.constant l.bound) = none := by
  refine Store.assume?_stretch_eq_none store_get?_i (words_zero hk.le) nofun fun z hz => ?_
  simp only [Comparison.Holds]
  omega

/-- Then it is left with the bound. -/
theorem assume?_ge_of_eq (hk : k = l.bound.toInt) :
    (l.store (stretch 0 k)).assume? "i" .ge (.constant l.bound) =
      some (l.store (.constant l.bound)) := by
  have hop : Comparison.ge ≠ .neq := nofun
  have hleft : Words l.bound.toInt l.bound.toInt :=
    .of_le (hk ▸ Int.natCast_nonneg k) (Int.le_refl _) (Int.le_refl _)
  rw [Store.assume?_stretch store_get?_i (words_zero hk.le) hop hleft, store_bind_i, stretch_self]
  intro z
  simp only [Comparison.Holds]
  omega

/-- Where nothing is known of the counter the condition tells nothing. -/
theorem assume?_unknown (op : Comparison) :
    (l.store .unknown).assume? "i" op (.constant l.bound) = some (l.store .unknown) := by
  refine Store.assume?_of_forall (fun i hi => ?_) op _
  rw [store_get?_i] at hi
  exact (Value.scalar.inj (Option.some.inj hi)).symm

end CountingLoop

end BufferBounds
