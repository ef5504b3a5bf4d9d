import BufferBounds.Proofs.Membership
import BufferBounds.Proofs.Reachability
import BufferBounds.Transfer

/-!
# Execution

What a function does when it runs. A memory maps variables to numbers and buffers. A run goes from
statement to statement and along the edges between blocks, and may go on in more than one way where
the outcome is not modelled: a call returns anything, a choice is either of its arms, and a branch
that does not compare two numbers is taken either way. Sums and differences of numbers saturate, so
whatever happens without overflow is among the runs. Reading a variable that is undefined gives no
value, and what needs the value does not happen: the run ends there.
-/

namespace BufferBounds

/-! ## Memories -/

/-- What a variable holds in a run. -/
inductive Content where
  /-- a number -/
  | number (n : Int64)
  /-- a buffer of this size that was allocated at `site` -/
  | buffer (site : Site) (size : Int64)
  deriving DecidableEq

/-- What the variables hold, as far as they are defined. -/
abbrev Memory : Type := String → Option Content

namespace Memory

/-- The memory in which `var` holds `d`. -/
def set (m : Memory) (var : String) (d : Content) : Memory :=
  fun var' => if var = var' then some d else m var'

end Memory

/-- The outcome of an operation on two numbers is the nearest word; on pointers it may be
anything. -/
def Content.Outcome (op : Int → Int → Int) : Content → Content → Content → Prop
  | .number a, .number b, d => d = .number (saturate (op a.toInt b.toInt))
  | _, _, _ => True

/-! ## Expressions -/

/-- The expression may have the value `d`. -/
inductive Expr.Evaluates (m : Memory) : Expr → Content → Prop where
  /-- a literal is itself -/
  | const (n : Int64) : Evaluates m (.const n) (.number n)
  /-- a variable must be defined -/
  | var {name : String} {d : Content} (h : m name = some d) : Evaluates m (.var name) d
  /-- a sum -/
  | add {lhs rhs : Expr} {x y d : Content} (hl : Evaluates m lhs x) (hr : Evaluates m rhs y)
      (h : Content.Outcome (· + ·) x y d) : Evaluates m (.add lhs rhs) d
  /-- a difference -/
  | sub {lhs rhs : Expr} {x y d : Content} (hl : Evaluates m lhs x) (hr : Evaluates m rhs y)
      (h : Content.Outcome (· - ·) x y d) : Evaluates m (.sub lhs rhs) d
  /-- the first arm of a choice -/
  | selectThen {thenArm elseArm : Expr} {d : Content} (h : Evaluates m thenArm d) :
      Evaluates m (.select thenArm elseArm) d
  /-- the second arm of a choice -/
  | selectElse {thenArm elseArm : Expr} {d : Content} (h : Evaluates m elseArm d) :
      Evaluates m (.select thenArm elseArm) d
  /-- a call returns anything -/
  | call (callee : String) (args : List Expr) (d : Content) : Evaluates m (.call callee args) d
  /-- what is not modelled is anything -/
  | unmodeled (text : String) (d : Content) : Evaluates m (.unmodeled text) d

/-! ## Statements -/

/-- An allocator called with these arguments may make a buffer of this size. It is as asked for,
if the arguments that tell the size are there, are numbers, and their product is a word. -/
def SizeLayout.Requests (m : Memory) (args : List Expr) (size : Int64) : SizeLayout → Prop
  | .single place =>
    match args[place]? with
    | some e => ∃ x, e.Evaluates m x ∧ ∀ n, x = .number n → size = n
    | none => True
  | .product place₁ place₂ =>
    match args[place₁]?, args[place₂]? with
    | some e₁, some e₂ =>
      ∃ x y, e₁.Evaluates m x ∧ e₂.Evaluates m y ∧
        ∀ a b n, x = .number a → y = .number b → word? (a.toInt * b.toInt) = some n → size = n
    | _, _ => True

/-- The statement at `site` may lead from one memory to the other. An access, and an expression
that is evaluated for its effects, change nothing. -/
inductive Statement.Runs (settings : Settings) (site : Site) (m : Memory) :
    Statement → Memory → Prop where
  /-- the result of an allocator is a new buffer -/
  | allocate {target callee : String} {args : List Expr} {span : Span} {size : Int64}
      (hcallee : settings.isAllocator callee = true)
      (hsize : (SizeLayout.ofCallee callee).Requests m args size) :
      Runs settings site m (.assign target (.call callee args) span)
        (m.set target (.buffer site size))
  /-- any other value is assigned as it is -/
  | assign {target : String} {value : Expr} {span : Span} {d : Content}
      (hvalue : ∀ callee args, value = .call callee args → settings.isAllocator callee = false)
      (h : value.Evaluates m d) :
      Runs settings site m (.assign target value span) (m.set target d)
  /-- an access reads only -/
  | access {base : String} {index : Expr} {span : Span} :
      Runs settings site m (.access base index span) m
  /-- effects are not modelled -/
  | eval {expr : Expr} {span : Span} : Runs settings site m (.eval expr span) m

/-! ## Branches -/

/-- The condition lets a run take an edge of this kind: if both its sides are numbers, as they
compare, and else either way. -/
def Condition.Allows (m : Memory) (c : Condition) (kind : EdgeKind) : Prop :=
  ∃ x y, m c.var = some x ∧ c.value.Evaluates m y ∧
    ∀ a b, x = .number a → y = .number b → (kind = .whenTrue ↔ c.op.Holds a.toInt b.toInt)

/-- A run may leave the block for `target`. -/
def Terminator.Takes (m : Memory) (t : Terminator) (target : String) (kind : EdgeKind) : Prop :=
  (target, kind) ∈ t.edges ∧ ∀ c, t.condition? = some c → c.Allows m kind

/-! ## Runs -/

/-- Where a run stands. -/
structure Config where
  /-- the block that it is in -/
  block : Block
  /-- the statements that it has still to run there -/
  rest : List (Site × Statement)
  /-- what the variables hold -/
  memory : Memory

namespace Flow

/-- One step of a run. -/
inductive Step (g : Flow) (settings : Settings) : Config → Config → Prop where
  /-- runs the next statement -/
  | statement {b : Block} {site : Site} {statement : Statement} {rest : List (Site × Statement)}
      {m m' : Memory} (h : statement.Runs settings site m m') :
      Step g settings ⟨b, (site, statement) :: rest, m⟩ ⟨b, rest, m'⟩
  /-- goes on to another block when all statements were run -/
  | edge {b c : Block} {target : String} {kind : EdgeKind} {m : Memory}
      (h : b.terminator.Takes m target kind) (hc : g.function.block? target = some c) :
      Step g settings ⟨b, [], m⟩ ⟨c, c.located, m⟩

/-- The variables that the function assigns anywhere. -/
def targets (g : Flow) : List String := g.function.blocks.flatMap Block.targets

/-- A run may start here: at the entry, where no variable is defined that the function assigns. Any
other variable may hold anything. -/
structure Starts (g : Flow) (c : Config) : Prop where
  /-- the run is at the entry -/
  block_eq : g.function.block? g.function.entry = some c.block
  /-- it has run nothing yet -/
  rest_eq : c.rest = c.block.located
  /-- the variables that are assigned somewhere are undefined -/
  undefined : ∀ var ∈ g.targets, c.memory var = none

/-- Some run comes to this point. -/
def Reaches (g : Flow) (settings : Settings) (c : Config) : Prop :=
  ∃ start, g.Starts start ∧ Relation.ReflTransGen (g.Step settings) start c

section

variable {g : Flow} {settings : Settings} {c c' : Config}

theorem Starts.reaches (h : g.Starts c) : g.Reaches settings c :=
  ⟨c, h, Relation.ReflTransGen.refl⟩

theorem Reaches.tail (h : g.Reaches settings c) (hstep : g.Step settings c c') :
    g.Reaches settings c' := by
  obtain ⟨start, hstart, hsteps⟩ := h
  exact ⟨start, hstart, hsteps.tail hstep⟩

/-- A run is always in a block of the function that can be reached. -/
theorem Reaches.block (h : g.Reaches settings c) :
    g.function.block? c.block.id = some c.block ∧ g.function.Reachable c.block.id := by
  obtain ⟨start, hstart, hsteps⟩ := h
  induction hsteps with
  | refl =>
    obtain ⟨-, hid⟩ := Function.mem_blocks_of_block? hstart.block_eq
    rw [hid]
    exact ⟨hstart.block_eq, Relation.ReflTransGen.refl⟩
  | tail _ hstep ih =>
    cases hstep with
    | statement hruns => exact ih
    | edge htakes hc =>
      obtain ⟨-, rfl⟩ := Function.mem_blocks_of_block? hc
      exact ⟨hc, ih.2.tail ⟨_, ih.1, List.mem_map_of_mem htakes.1⟩⟩

end

end Flow

end BufferBounds
