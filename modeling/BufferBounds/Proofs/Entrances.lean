import BufferBounds.Proofs.Stability

/-!
# How blocks are entered

A block other than the entry gets a store only when some edge into it lets one through. This is so
at the step that runs the block first, and need not stay so: exit stores are replaced, and an edge
that was open while a variable was not assigned yet can be closed by the value it has later. The
entry store of the block is kept nevertheless. Where conditions restrict nothing, an edge once open
stays open.
-/

namespace BufferBounds

/-- There is a join exactly of some stores. -/
theorem Store.isSome_joinAll?_iff {ss : List Store} : (joinAll? ss).isSome ↔ ∃ s, s ∈ ss := by
  cases ss with
  | nil => simp [joinAll?]
  | cons s ss => simp [joinAll?]

/-! ## Open edges -/

theorem Block.along?_of_branchNarrowing_eq_false {settings : Settings} {b : Block}
    {kind : EdgeKind} {s : Store} (h : settings.branchNarrowing = false) :
    b.along? settings kind s = some s := by
  rw [along?.eq_def, if_neg (by simp [h])]

theorem Block.along?_of_condition?_eq_none {settings : Settings} {b : Block} {kind : EdgeKind}
    {s : Store} (h : b.terminator.condition? = none) : b.along? settings kind s = some s := by
  rw [along?.eq_def, h]
  split <;> rfl

namespace Flow

variable {g : Flow} {settings : Settings} {exits exits' : Table Store} {id : String}

/-- The edge lets the store through that is found at the end of its block. -/
def Open (settings : Settings) (exits : Table Store) (b : Block) (kind : EdgeKind) : Prop :=
  ∃ s t, exits[b.id]? = some s ∧ b.along? settings kind s = some t

/-- Some edge into the block is open. -/
def Entered (g : Flow) (settings : Settings) (exits : Table Store) (id : String) : Prop :=
  ∃ b kind, (b, kind) ∈ g.incoming id ∧ Open settings exits b kind

/-- A store arrives at the entry and at the blocks with an open edge into them, and nowhere else. -/
theorem isSome_incomingStore?_iff :
    (g.incomingStore? settings exits id).isSome ↔
      id = g.function.entry ∨ g.Entered settings exits id := by
  rw [incomingStore?, Store.isSome_joinAll?_iff]
  constructor
  · rintro ⟨s, hs⟩
    rcases List.mem_append.mp hs with hs | hs
    · split at hs
      · rename_i hentry
        exact Or.inl hentry
      · cases hs
    · obtain ⟨⟨b, kind⟩, hedge, hs⟩ := List.mem_filterMap.mp hs
      obtain ⟨exit, hexit, hs⟩ := Option.bind_eq_some_iff.mp hs
      exact Or.inr ⟨b, kind, hedge, exit, s, hexit, hs⟩
  · rintro (hentry | ⟨b, kind, hedge, exit, s, hexit, hs⟩)
    · exact ⟨∅, List.mem_append_left _ (by simp [hentry])⟩
    · refine ⟨s, List.mem_append_right _ (List.mem_filterMap.mpr ⟨(b, kind), hedge, ?_⟩)⟩
      exact Option.bind_eq_some_iff.mpr ⟨exit, hexit, hs⟩

/-- An edge that no condition restricts is open as soon as its block has an exit store. -/
theorem open_of_unrestricted {b : Block} {kind : EdgeKind}
    (h : settings.branchNarrowing = false ∨ b.terminator.condition? = none) (hb : b.id ∈ exits) :
    Open settings exits b kind := by
  obtain ⟨s, hs⟩ := Table.mem_iff_exists.mp hb
  rcases h with hsettings | hcondition
  · exact ⟨s, s, hs, Block.along?_of_branchNarrowing_eq_false hsettings⟩
  · exact ⟨s, s, hs, Block.along?_of_condition?_eq_none hcondition⟩

end Flow

/-! ## Steps -/

namespace Progress

variable {g : Flow} {settings : Settings} {p q : Progress g} {id : String}

/-- A block that has an exit store keeps one. -/
theorem Stepped.mem_exits (h : Stepped settings p q) (hid : id ∈ p.exits) : id ∈ q.exits := by
  cases h with
  | idle hpending hsettled => exact hid
  | run hpending hplace hincoming hrenewal hmem hentry =>
    exact mem_exits_run.mpr (Or.inr (hrenewal.exits_eq ▸ hid))

/-- A step gives a first store only to the block that it runs, at which something arrives. -/
theorem Stepped.mem_entries (h : Stepped settings p q) (hid : id ∈ q.entries) :
    id ∈ p.entries ∨ (g.incomingStore? settings p.exits id).isSome := by
  cases h with
  | idle hpending hsettled => exact Or.inl hid
  | run hpending hplace hincoming hrenewal hmem hentry =>
    rw [mem_entries_run, hrenewal.entries_eq] at hid
    rcases hid with rfl | hid
    · exact Or.inr (by rw [hincoming]; rfl)
    · exact Or.inl hid

/-- After `n` steps every block with an entry store was entered at an earlier one, along an edge from
a block that still has an exit store. -/
theorem entered_advance (n : Nat) (hid : id ∈ ((start g).advance settings n).entries)
    (hne : id ≠ g.function.entry) :
    ∃ b kind, (b, kind) ∈ g.incoming id ∧ b.id ∈ ((start g).advance settings n).exits ∧
      ∃ k < n, Flow.Open settings ((start g).advance settings k).exits b kind := by
  induction n with
  | zero => exact absurd hid Std.ExtTreeMap.not_mem_empty
  | succ n ih =>
    rcases stepped_advance (start g) settings n with hstep | heq
    · rcases hstep.mem_entries hid with hold | hnew
      · obtain ⟨b, kind, hedge, hb, k, hk, hopen⟩ := ih hold
        exact ⟨b, kind, hedge, hstep.mem_exits hb, k, Nat.lt_succ_of_lt hk, hopen⟩
      · rcases Flow.isSome_incomingStore?_iff.mp hnew with hentry | ⟨b, kind, hedge, hopen⟩
        · exact absurd hentry hne
        · have hb : b.id ∈ ((start g).advance settings n).exits := by
            obtain ⟨s, t, hs, -⟩ := hopen
            exact Table.mem_of_eq_some hs
          exact ⟨b, kind, hedge, hstep.mem_exits hb, n, Nat.lt_succ_self n, hopen⟩
    · rw [heq] at hid ⊢
      obtain ⟨b, kind, hedge, hb, k, hk, hopen⟩ := ih hid
      exact ⟨b, kind, hedge, hb, k, Nat.lt_succ_of_lt hk, hopen⟩

end Progress

/-! ## The solution -/

namespace Flow

variable {settings : Settings} {id : String}

/-- **Every reached block was entered.** A block with an entry store, other than the entry, has an
edge into it from a block with an exit store that was open at some step of the propagation. At the
end this edge is open still if no condition restricts it. -/
theorem entered_once (g : Flow) (settings : Settings) :
    ∀ id ∈ (g.propagate settings).entries, id ≠ g.function.entry →
      ∃ b kind, (b, kind) ∈ g.incoming id ∧ b.id ∈ (g.propagate settings).exits ∧
        (∃ n, Open settings ((Progress.start g).advance settings n).exits b kind) ∧
        (settings.branchNarrowing = false ∨ b.terminator.condition? = none →
          Open settings (g.propagate settings).exits b kind) := by
  intro id hid hne
  obtain ⟨n, hfinish, -, -⟩ := (Progress.start g).exists_finish_eq_advance settings
  rw [propagate, hfinish] at hid ⊢
  obtain ⟨b, kind, hedge, hb, k, -, hopen⟩ := Progress.entered_advance n hid hne
  exact ⟨b, kind, hedge, hb, ⟨k, hopen⟩, fun h => open_of_unrestricted h hb⟩

/-- A loop that is left while `x` is less than five, and sets `x` to ten. The first visit knows
nothing of `x` and goes on behind the loop; afterwards `x` is known to be ten there. -/
def leftBehind : Flow where
  function :=
    { name := "stale"
      entry := "entry"
      blocks :=
        [ ⟨"entry", [.assign "buf" (.call "malloc" [.const 10]) ⟨1, 4, 1, 4⟩], .goto "head"⟩,
          ⟨"head", [], .branch (some ⟨"x", .ge, .const 5⟩) "body" "stale"⟩,
          ⟨"body", [.assign "x" (.const 10) ⟨4, 4, 4, 4⟩], .goto "head"⟩,
          ⟨"stale", [.access "buf" (.const 100) ⟨6, 4, 6, 4⟩], .exit⟩ ] }
  wellFormed := (Function.fault?_eq_none_iff _).mp (by decide)
  order := _
  order_eq := rfl

/-- The edge out of the loop was open once. -/
theorem entered_once_leftBehind :
    ∃ b kind, (b, kind) ∈ leftBehind.incoming "stale" ∧
      ∃ n, Open default ((Progress.start leftBehind).advance default n).exits b kind := by
  have hreached : "stale" ∈ (leftBehind.propagate default).entries := by decide +kernel
  obtain ⟨b, kind, hedge, -, hopen, -⟩ :=
    entered_once leftBehind default "stale" hreached (by decide)
  exact ⟨b, kind, hedge, hopen⟩

/-- At the end the edge out of the loop is closed, and the block behind it has a store. -/
theorem not_entered_leftBehind :
    ¬ ∀ id ∈ (leftBehind.propagate default).entries, id ≠ leftBehind.function.entry →
      leftBehind.Entered default (leftBehind.propagate default).exits id := by
  have hstale : "stale" ∈ (leftBehind.propagate default).entries ∧
      leftBehind.incomingStore? default (leftBehind.propagate default).exits "stale" = none := by
    decide +kernel
  intro h
  have hsome := isSome_incomingStore?_iff.mpr (Or.inr (h "stale" hstale.1 (by decide)))
  rw [hstale.2] at hsome
  cases hsome

end Flow

end BufferBounds
