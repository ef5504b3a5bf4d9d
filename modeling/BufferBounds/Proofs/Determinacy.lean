import BufferBounds.Proofs.Execution
import BufferBounds.Proofs.Reachability

/-!
# Determined runs

A run is determined where everything it does can be done in one way only. Here it is given by
partial functions, that have no result where more than one would be possible, or none: numbers are
computed from literals and variables that were assigned, and never leave the words; buffers are only
made, copied and accessed; no variable holds a number at one time and a buffer at another; and every
branch compares two numbers. Nothing is known of variables that are not assigned.

Such a run is a run in the general sense, and there is only one. In a function without loops it
comes to a block at most once.
-/

namespace BufferBounds

/-! ## Expressions and statements -/

/-- The number that the expression is, if it is determined and no sum or difference on the way
leaves the words. -/
def Expr.determined? (m : Memory) : Expr → Option Int64
  | .const n => some n
  | .var name =>
    match m name with
    | some (.number n) => some n
    | _ => none
  | .add lhs rhs => do
    let a ← lhs.determined? m
    let b ← rhs.determined? m
    word? (a.toInt + b.toInt)
  | .sub lhs rhs => do
    let a ← lhs.determined? m
    let b ← rhs.determined? m
    word? (a.toInt - b.toInt)
  | _ => none

/-- What the expression is, if it is determined. Of a buffer there are only copies. -/
def Expr.content? (m : Memory) : Expr → Option Content
  | .var name => m name
  | e => (e.determined? m).map .number

/-- The size that an allocator called with these arguments is asked for, if it is determined. -/
def SizeLayout.determined? (m : Memory) (args : List Expr) : SizeLayout → Option Int64
  | .single place => do
    let e ← args[place]?
    e.determined? m
  | .product place₁ place₂ => do
    let e₁ ← args[place₁]?
    let e₂ ← args[place₂]?
    let a ← e₁.determined? m
    let b ← e₂.determined? m
    word? (a.toInt * b.toInt)

/-- Is it a buffer? -/
def Content.isBuffer : Content → Bool
  | .number _ => false
  | .buffer _ _ => true

/-- Gives a variable a value, unless it holds one of the other kind. -/
def Memory.put? (m : Memory) (var : String) (d : Content) : Option Memory :=
  if (m var).all (·.isBuffer = d.isBuffer) then some (m.set var d) else none

/-- The memory after the statement at `site`, if it is determined. An access must be one to a buffer
at a number. -/
def Statement.determined? (settings : Settings) (site : Site) (m : Memory) :
    Statement → Option Memory
  | .assign target (.call callee args) _ =>
    if settings.isAllocator callee then do
      let size ← (SizeLayout.ofCallee callee).determined? m args
      m.put? target (.buffer site size)
    else none
  | .assign target value _ => do
    let d ← value.content? m
    m.put? target d
  | .access base index _ =>
    match m base, index.determined? m with
    | some (.buffer _ _), some _ => some m
    | _, _ => none
  | .eval _ _ => some m

/-- The edge by which the run leaves the block, if it leaves it and the edge is determined. -/
def Terminator.determined? (m : Memory) : Terminator → Option (String × EdgeKind)
  | .goto target => some (target, .jump)
  | .branch (some c) thenBlock elseBlock =>
    match m c.var, c.value.determined? m with
    | some (.number a), some b =>
      if c.op.Holds a.toInt b.toInt then some (thenBlock, .whenTrue)
      else some (elseBlock, .whenFalse)
    | _, _ => none
  | .branch none _ _ => none
  | .exit => none

/-! ## Runs -/

namespace Flow

/-- One step of the determined run, if there is one. -/
def determinedStep? (g : Flow) (settings : Settings) : Config → Option Config
  | ⟨b, (site, statement) :: rest, m⟩ =>
    (statement.determined? settings site m).map fun m' => ⟨b, rest, m'⟩
  | ⟨b, [], m⟩ => do
    let (target, _) ← b.terminator.determined? m
    let c ← g.function.block? target
    return ⟨c, c.located, m⟩

/-- The run goes from one point to another, in any number of steps. -/
def DeterminedRun (g : Flow) (settings : Settings) : Config → Config → Prop :=
  Relation.ReflTransGen fun c c' => g.determinedStep? settings c = some c'

/-- The determined run comes to this point. It starts at the entry where no variable is known. -/
def Executes (g : Flow) (settings : Settings) (c : Config) : Prop :=
  ∃ b, g.function.block? g.function.entry = some b ∧
    g.DeterminedRun settings ⟨b, b.located, fun _ => none⟩ c

/-- The determined run ends where the function is left, so it is determined all the way. -/
def Determined (g : Flow) (settings : Settings) : Prop :=
  ∃ b m, g.Executes settings ⟨b, [], m⟩ ∧ b.terminator = .exit

end Flow

/-! ## Determined runs are runs -/

section General

variable {settings : Settings} {site : Site} {m m' : Memory}

theorem Expr.evaluates_of_determined? {e : Expr} {n : Int64} (h : e.determined? m = some n) :
    e.Evaluates m (.number n) := by
  fun_induction determined? m e generalizing n with
  | case1 n' =>
    obtain rfl := Option.some.inj h
    exact .const n'
  | case2 name n' hn =>
    obtain rfl := Option.some.inj h
    exact .var hn
  | case3 => cases h
  | case4 lhs rhs ihl ihr =>
    obtain ⟨a, ha, h⟩ := Option.bind_eq_some_iff.mp h
    obtain ⟨b, hb, h⟩ := Option.bind_eq_some_iff.mp h
    refine .add (ihl ha) (ihr hb) ?_
    rw [Content.Outcome, saturate, h, Option.getD_some]
  | case5 lhs rhs ihl ihr =>
    obtain ⟨a, ha, h⟩ := Option.bind_eq_some_iff.mp h
    obtain ⟨b, hb, h⟩ := Option.bind_eq_some_iff.mp h
    refine .sub (ihl ha) (ihr hb) ?_
    rw [Content.Outcome, saturate, h, Option.getD_some]
  | case6 => cases h

theorem Expr.evaluates_of_content? {e : Expr} {d : Content} (h : e.content? m = some d) :
    e.Evaluates m d := by
  rw [content?.eq_def] at h
  split at h
  · exact .var h
  · obtain ⟨n, hn, rfl⟩ := Option.map_eq_some_iff.mp h
    exact evaluates_of_determined? hn

theorem SizeLayout.requests_of_determined? {layout : SizeLayout} {args : List Expr} {size : Int64}
    (h : layout.determined? m args = some size) : layout.Requests m args size := by
  cases layout with
  | single place =>
    obtain ⟨e, he, h⟩ := Option.bind_eq_some_iff.mp h
    rw [Requests, he]
    exact ⟨_, Expr.evaluates_of_determined? h, fun _ hn => Content.number.inj hn⟩
  | product place₁ place₂ =>
    obtain ⟨e₁, he₁, h⟩ := Option.bind_eq_some_iff.mp h
    obtain ⟨e₂, he₂, h⟩ := Option.bind_eq_some_iff.mp h
    obtain ⟨a, ha, h⟩ := Option.bind_eq_some_iff.mp h
    obtain ⟨b, hb, h⟩ := Option.bind_eq_some_iff.mp h
    rw [Requests, he₁, he₂]
    refine ⟨_, _, Expr.evaluates_of_determined? ha, Expr.evaluates_of_determined? hb, ?_⟩
    rintro _ _ n ⟨⟩ ⟨⟩ hn
    exact Option.some.inj (h.symm.trans hn)

theorem Memory.eq_set_of_put? {var : String} {d : Content} (h : m.put? var d = some m') :
    m' = m.set var d := by
  rw [put?] at h
  split at h
  · exact (Option.some.inj h).symm
  · cases h

theorem Statement.runs_of_determined? {statement : Statement}
    (h : statement.determined? settings site m = some m') : statement.Runs settings site m m' := by
  rw [determined?.eq_def] at h
  split at h
  · split at h
    · rename_i hcallee
      obtain ⟨size, hsize, h⟩ := Option.bind_eq_some_iff.mp h
      rw [Memory.eq_set_of_put? h]
      exact .allocate hcallee (SizeLayout.requests_of_determined? hsize)
    · cases h
  · rename_i target value span hvalue
    obtain ⟨d, hd, h⟩ := Option.bind_eq_some_iff.mp h
    rw [Memory.eq_set_of_put? h]
    refine .assign ?_ (Expr.evaluates_of_content? hd)
    rintro callee args rfl
    exact (hvalue callee args rfl).elim
  · split at h
    · obtain rfl := Option.some.inj h
      exact .access
    · cases h
  · obtain rfl := Option.some.inj h
    exact .eval

theorem Terminator.takes_of_determined? {t : Terminator} {target : String} {kind : EdgeKind}
    (h : t.determined? m = some (target, kind)) : t.Takes m target kind := by
  rw [determined?.eq_def] at h
  split at h
  · cases h
    exact ⟨List.mem_singleton_self _, nofun⟩
  · rename_i c thenBlock elseBlock
    split at h
    · rename_i a b ha hb
      have hallows : (kind = .whenTrue ↔ c.op.Holds a.toInt b.toInt) →
          c.Allows m kind := by
        intro hiff
        refine ⟨_, _, ha, Expr.evaluates_of_determined? hb, ?_⟩
        rintro _ _ ⟨⟩ ⟨⟩
        exact hiff
      split at h
      · rename_i hholds
        cases h
        refine ⟨List.mem_cons_self .., ?_⟩
        rintro _ ⟨⟩
        exact hallows (iff_of_true rfl hholds)
      · rename_i hholds
        cases h
        refine ⟨List.mem_cons_of_mem _ (List.mem_singleton_self _), ?_⟩
        rintro _ ⟨⟩
        exact hallows (iff_of_false nofun hholds)
    · cases h
  · cases h
  · cases h

end General

namespace Flow

variable {g : Flow} {settings : Settings} {c c' : Config} {b b' : Block}
  {rest rest' : List (Site × Statement)} {m m' : Memory}

theorem step_of_determinedStep? (h : g.determinedStep? settings c = some c') :
    g.Step settings c c' := by
  rw [determinedStep?.eq_def] at h
  split at h
  · obtain ⟨m', hm', rfl⟩ := Option.map_eq_some_iff.mp h
    exact .statement (Statement.runs_of_determined? hm')
  · obtain ⟨⟨target, kind⟩, hedge, h⟩ := Option.bind_eq_some_iff.mp h
    obtain ⟨b', hb', h⟩ := Option.bind_eq_some_iff.mp h
    obtain rfl := Option.some.inj h
    exact .edge (Terminator.takes_of_determined? hedge) hb'

namespace Executes

theorem reaches (h : g.Executes settings c) : g.Reaches settings c := by
  obtain ⟨b, hb, hrun⟩ := h
  have hstart : g.Starts ⟨b, b.located, fun _ => none⟩ := ⟨hb, rfl, fun _ _ => rfl⟩
  exact ⟨_, hstart, Relation.ReflTransGen.mono (fun _ _ => step_of_determinedStep?) _ _ hrun⟩

theorem tail (h : g.Executes settings c) (hstep : g.determinedStep? settings c = some c') :
    g.Executes settings c' := by
  obtain ⟨b, hb, hrun⟩ := h
  exact ⟨b, hb, hrun.tail hstep⟩

/-! ## There is only one -/

/-- Of two points that the run comes to, it comes from one to the other. -/
theorem total (h : g.Executes settings c) (h' : g.Executes settings c') :
    g.DeterminedRun settings c c' ∨ g.DeterminedRun settings c' c := by
  obtain ⟨b, hb, hrun⟩ := h
  obtain ⟨b', hb', hrun'⟩ := h'
  obtain rfl : b = b' := Option.some.inj (hb.symm.trans hb')
  refine Relation.ReflTransGen.total_of_right_unique ?_ hrun hrun'
  intro c₁ c₂ c₃ h₂ h₃
  exact Option.some.inj (h₂.symm.trans h₃)

/-- The run goes on until the function is left. -/
theorem exists_step (h : g.Executes settings c) (hg : g.Determined settings) :
    (∃ c', g.determinedStep? settings c = some c') ∨
      (c.rest = [] ∧ c.block.terminator = .exit) := by
  obtain ⟨b, m, hlast, hexit⟩ := hg
  rcases h.total hlast with hrun | hrun
  · rcases hrun.cases_head with rfl | ⟨c', hstep, -⟩
    · exact Or.inr ⟨rfl, hexit⟩
    · exact Or.inl ⟨c', hstep⟩
  · rcases hrun.cases_head with rfl | ⟨c', hstep, -⟩
    · exact Or.inr ⟨rfl, hexit⟩
    · -- where the function is left there is no next step
      simp only [determinedStep?, hexit, Terminator.determined?] at hstep
      cases hstep

theorem exists_statement {site : Site} {statement : Statement}
    (h : g.Executes settings ⟨b, (site, statement) :: rest, m⟩) (hg : g.Determined settings) :
    ∃ m', statement.determined? settings site m = some m' ∧ g.Executes settings ⟨b, rest, m'⟩ := by
  rcases h.exists_step hg with ⟨c', hstep⟩ | ⟨hrest, -⟩
  · obtain ⟨m', hm', rfl⟩ := Option.map_eq_some_iff.mp hstep
    exact ⟨m', hm', h.tail hstep⟩
  · cases hrest

/-- The run accesses buffers only, and at numbers. -/
theorem exists_access {site : Site} {base : String} {index : Expr} {span : Span}
    (h : g.Executes settings ⟨b, (site, .access base index span) :: rest, m⟩)
    (hg : g.Determined settings) :
    ∃ alloc size n, m base = some (.buffer alloc size) ∧ index.determined? m = some n := by
  obtain ⟨m', hm', -⟩ := h.exists_statement hg
  rw [Statement.determined?] at hm'
  split at hm'
  · rename_i alloc size n hbase hindex
    exact ⟨alloc, size, n, hbase, hindex⟩
  · cases hm'

theorem exists_edge (h : g.Executes settings ⟨b, [], m⟩) (hg : g.Determined settings)
    (hb : b.terminator.edges ≠ []) :
    ∃ target kind b', b.terminator.determined? m = some (target, kind) ∧
      g.function.block? target = some b' ∧ g.Executes settings ⟨b', b'.located, m⟩ := by
  rcases h.exists_step hg with ⟨c', hstep⟩ | ⟨-, hexit⟩
  · obtain ⟨⟨target, kind⟩, hedge, hnext⟩ := Option.bind_eq_some_iff.mp hstep
    obtain ⟨b', hb', hnext⟩ := Option.bind_eq_some_iff.mp hnext
    obtain rfl := Option.some.inj hnext
    exact ⟨target, kind, b', hedge, hb', h.tail hstep⟩
  · have hexit : b.terminator = .exit := hexit
    rw [hexit] at hb
    exact absurd rfl hb

/-! ## Without loops -/

/-- Running on leads further in the block or along a path of edges. -/
theorem path (h : g.Executes settings c) (hrun : g.DeterminedRun settings c c') :
    c' = c ∨ (c'.block = c.block ∧ c'.rest.length < c.rest.length) ∨
      Relation.TransGen g.function.Edge c.block.id c'.block.id := by
  obtain ⟨b, hb, hstart⟩ := h
  induction hrun with
  | refl => exact Or.inl rfl
  | @tail c₁ c₂ hrun hstep ih =>
    have hblock := (reaches ⟨b, hb, hstart.trans hrun⟩).block.1
    cases step_of_determinedStep? hstep with
    | @statement b₁ site statement rest m m' hruns =>
      refine Or.inr ?_
      rcases ih with rfl | ⟨hsame, hlt⟩ | hpath
      · exact Or.inl ⟨rfl, Nat.lt_succ_self _⟩
      · exact Or.inl ⟨hsame, Nat.lt_of_succ_lt hlt⟩
      · exact Or.inr hpath
    | @edge b₁ b₂ target kind m htakes hb₂ =>
      obtain ⟨-, rfl⟩ := Function.mem_blocks_of_block? hb₂
      have hedge : g.function.Edge b₁.id b₂.id := ⟨b₁, hblock, List.mem_map_of_mem htakes.1⟩
      refine Or.inr (Or.inr ?_)
      rcases ih with rfl | ⟨hsame, -⟩ | hpath
      · exact .single hedge
      · have hsame : b₁ = c.block := hsame
        exact hsame ▸ .single hedge
      · exact hpath.tail hedge

/-- Without loops the run comes only once to the same place of the same block. -/
theorem memory_eq (h : g.Executes settings ⟨b, rest, m⟩) (h' : g.Executes settings ⟨b, rest, m'⟩)
    (hg : g.function.Acyclic) : m = m' := by
  have hloop := hg b.id h.reaches.block.2
  rcases h.total h' with hrun | hrun
  · rcases h.path hrun with heq | ⟨-, hlt⟩ | hpath
    · cases heq
      rfl
    · exact absurd hlt (Nat.lt_irrefl _)
    · exact absurd hpath hloop
  · rcases h'.path hrun with heq | ⟨-, hlt⟩ | hpath
    · cases heq
      rfl
    · exact absurd hlt (Nat.lt_irrefl _)
    · exact absurd hpath hloop

end Executes

end Flow

end BufferBounds
