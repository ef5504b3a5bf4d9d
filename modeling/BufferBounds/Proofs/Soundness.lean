import BufferBounds.Analysis
import BufferBounds.Proofs.Records
import BufferBounds.Proofs.Simulation
import BufferBounds.Proofs.Stability
import BufferBounds.Proofs.Verdicts

/-!
# Verdicts are sound

A run of a function is followed by its solution: wherever it stands, the block has an entry store,
and the trace of the block from there has a store that describes the memory. So what is recorded of
an access describes what the access does, and a verdict on it is true.
-/

namespace BufferBounds

/-! ## Traces -/

namespace Block

variable {settings : Settings} {b : Block} {s entry : Store} {site : Site} {statement : Statement}

/-- A site tells which of the statements in the trace of a block it belongs to. -/
theorem getElem?_trace_of_mem (h : (site, statement, s) ∈ b.trace settings entry) :
    (b.trace settings entry)[site.statement]? = some (site, statement, s) := by
  obtain ⟨place, hplace⟩ := List.mem_iff_getElem?.mp h
  have hlocated : b.located[place]? = some (site, statement) := by
    rw [← map_traceFrom settings entry b.located, List.getElem?_map]
    change Option.map _ (b.trace settings entry)[place]? = _
    rw [hplace]
    rfl
  rw [located, List.getElem?_map] at hlocated
  obtain ⟨⟨statement', place'⟩, hzip, heq⟩ := Option.map_eq_some_iff.mp hlocated
  rw [List.getElem?_zipIdx] at hzip
  obtain ⟨_, -, hzip⟩ := Option.map_eq_some_iff.mp hzip
  cases heq
  cases hzip
  simpa using hplace

end Block

namespace Flow

variable {g : Flow} {settings : Settings} {c c' : Config} {entry s t : Store}

/-! ## What the solution covers -/

theorem assigned_subset_targets (g : Flow) : g.assigned ⊆ g.targets := by
  intro var hvar
  obtain ⟨b, hb, hmem⟩ := List.mem_flatMap.mp (List.mem_eraseDups.mp hvar)
  exact List.mem_flatMap.mpr ⟨b, mem_blocks_of_mem_order hb, hmem⟩

theorem within_entries {id : String} (h : (g.propagate settings).entries[id]? = some s) :
    s.Within g.targets :=
  (((Progress.start g).finish settings).within_entries id s h).mono g.assigned_subset_targets

theorem within_exits {id : String} (h : (g.propagate settings).exits[id]? = some s) :
    s.Within g.targets :=
  (((Progress.start g).finish settings).within_exits id s h).mono g.assigned_subset_targets

/-- A memory that is described by one of the stores that arrive is described by the entry store. -/
theorem exists_entry_describes {id : String} {m : Memory} (hreach : g.function.Reachable id)
    (hmem : t ∈ g.arriving settings (g.propagate settings).exits id)
    (ht : t.Describes g.targets m) :
    ∃ entry, (g.propagate settings).entries[id]? = some entry ∧ entry.Describes g.targets m := by
  obtain ⟨s, hs, hdesc⟩ := ht.joinAll? hmem fun _ ht =>
    within_of_mem_arriving (fun _ _ => within_exits) ht
  obtain ⟨entry, hentry, hjoin⟩ := covered_propagate hreach s hs
  have hjoined := hdesc.join_right (within_entries hentry)
  rw [hjoin] at hjoined
  exact ⟨entry, hentry, hjoined⟩

/-! ## The invariant -/

/-- The solution follows a run: `entry` is the entry store of the block that it is in, and `s` is
the store there where the run stands. -/
structure Follows (g : Flow) (settings : Settings) (c : Config) (entry s : Store) : Prop where
  /-- a run comes here -/
  reaches : g.Reaches settings c
  /-- the block is reached -/
  entry_eq : (g.propagate settings).entries[c.block.id]? = some entry
  /-- what is left of the block is run from `s` in its trace -/
  trace : Block.traceFrom settings s c.rest <:+ c.block.trace settings entry
  /-- what is left of the block leads from `s` to its exit store -/
  exit : c.rest.foldl (fun s (site, statement) => statement.after settings site s) s =
    c.block.transfer settings entry
  /-- the store describes the memory -/
  describes : s.Describes g.targets c.memory

namespace Follows

variable {b b' : Block} {site : Site} {rest : List (Site × Statement)} {m m' : Memory}

/-- At the start of a block the store is its entry store. -/
theorem of_arriving (h : g.Reaches settings ⟨b, b.located, m⟩)
    (hmem : t ∈ g.arriving settings (g.propagate settings).exits b.id)
    (ht : t.Describes g.targets m) :
    ∃ entry, g.Follows settings ⟨b, b.located, m⟩ entry entry := by
  obtain ⟨entry, hentry, hdesc⟩ := exists_entry_describes h.block.2 hmem ht
  exact ⟨entry, h, hentry, List.suffix_refl _, rfl, hdesc⟩

theorem start (h : g.Starts c) : ∃ entry, g.Follows settings c entry entry := by
  obtain ⟨b, rest, m⟩ := c
  obtain rfl : rest = b.located := h.rest_eq
  obtain ⟨-, hid⟩ := Function.mem_blocks_of_block? h.block_eq
  refine of_arriving h.reaches ?_ (Store.Describes.empty h.undefined)
  rw [arriving, if_pos hid]
  exact List.mem_append_left _ (List.mem_singleton_self _)

/-- A statement leads to the next store in the trace of the block. -/
theorem statement {statement : Statement}
    (h : g.Follows settings ⟨b, (site, statement) :: rest, m⟩ entry s)
    (hruns : statement.Runs settings site m m') :
    g.Follows settings ⟨b, rest, m'⟩ entry (statement.after settings site s) where
  reaches := h.reaches.tail (.statement hruns)
  entry_eq := h.entry_eq
  trace := (List.suffix_cons _ _).trans h.trace
  exit := h.exit
  describes := hruns.describes_after h.describes

theorem exits_eq (h : g.Follows settings ⟨b, [], m⟩ entry s) :
    (g.propagate settings).exits[b.id]? = some s := by
  have hexit : s = b.transfer settings entry := h.exit
  rw [hexit]
  exact exits_eq_transfer (Function.mem_blocks_of_block? h.reaches.block.1).1 h.entry_eq

/-- An edge leads to the entry store of another block, as the store at the end of the block passes
it and arrives there. -/
theorem edge {target : String} {kind : EdgeKind} (h : g.Follows settings ⟨b, [], m⟩ entry s)
    (htakes : b.terminator.Takes m target kind) (hb' : g.function.block? target = some b') :
    ∃ entry', g.Follows settings ⟨b', b'.located, m⟩ entry' entry' := by
  obtain ⟨t, ht, hdesc⟩ := htakes.describes_along h.describes
  refine of_arriving (h.reaches.tail (.edge htakes hb')) ?_ hdesc
  obtain ⟨-, rfl⟩ := Function.mem_blocks_of_block? hb'
  obtain ⟨hmem, -⟩ := Function.mem_blocks_of_block? h.reaches.block.1
  refine List.mem_append_right _ (List.mem_filterMap.mpr ⟨(b, kind), ?_, ?_⟩)
  · exact mem_incoming.mpr ⟨hmem, htakes.1⟩
  · change (g.propagate settings).exits[b.id]?.bind _ = some t
    rw [h.exits_eq, Option.bind_some, ht]

theorem step (h : g.Follows settings c entry s) (hstep : g.Step settings c c') :
    ∃ entry' s', g.Follows settings c' entry' s' := by
  cases hstep with
  | statement hruns => exact ⟨entry, _, h.statement hruns⟩
  | edge htakes hb' =>
    obtain ⟨entry', hfollows⟩ := h.edge htakes hb'
    exact ⟨entry', entry', hfollows⟩

end Follows

/-- Wherever a run comes to, the solution follows it. -/
theorem Reaches.exists_follows (h : g.Reaches settings c) :
    ∃ entry s, g.Follows settings c entry s := by
  obtain ⟨start, hstart, hsteps⟩ := h
  induction hsteps with
  | refl =>
    obtain ⟨entry, hfollows⟩ := Follows.start hstart
    exact ⟨entry, entry, hfollows⟩
  | tail _ hstep ih =>
    obtain ⟨entry, s, hfollows⟩ := ih
    exact hfollows.step hstep

/-- The next statement of a run is in the trace with the store where the run stands, and the access
that it makes from there is recorded. -/
theorem Follows.recorded (h : g.Follows settings c entry s) {site : Site} {statement : Statement}
    {rest : List (Site × Statement)} (hrest : c.rest = (site, statement) :: rest) {a : Access}
    (ha : statement.access? g.function.name s = some a) :
    (c.block.trace settings entry)[site.statement]? = some (site, statement, s) ∧
      a ∈ (g.propagate settings).accesses := by
  have htrace : (site, statement, s) ∈ c.block.trace settings entry := by
    refine h.trace.subset ?_
    rw [hrest]
    exact List.mem_cons_self ..
  have hsees : a ∈ c.block.accesses settings g.function.name entry :=
    List.mem_filterMap.mpr ⟨_, htrace, ha⟩
  obtain ⟨hblock, hreach⟩ := h.reaches.block
  have horder := mem_order_iff.mpr ⟨(Function.mem_blocks_of_block? hblock).1, hreach⟩
  exact ⟨Block.getElem?_trace_of_mem htrace, mem_observe horder h.entry_eq hsees⟩

end Flow

/-! ## Accesses -/

/-- What was recorded of an access holds of what its base and its index are. -/
structure Access.Describes (a : Access) (base index : Content) : Prop where
  /-- what the base is taken to point to -/
  pointer : ∀ p, a.pointer = some p → p.Describes base
  /-- the index -/
  index : a.index.Describes index

namespace Access

variable {a : Access} {policy : StraddlePolicy} {base index : Content}

/-- Where something is decided the base is a buffer and the index a number. -/
theorem Describes.of_decided (h : a.Describes base index)
    (hne : (Checker.bounds policy).classify a ≠ .indeterminate) :
    ∃ interval site size n, base = .buffer site size ∧ index = .number n ∧
      size.toInt ∈ interval ∧ n.toInt ∈ a.index ∧
      (Checker.bounds policy).classify a = policy.classify interval a.index := by
  cases hp : a.pointer with
  | none =>
    refine absurd ?_ hne
    simp only [Checker.bounds, Access.size?, hp, Option.bind_none]
  | some p =>
    cases p with
    | untracked =>
      refine absurd ?_ hne
      simp only [Checker.bounds, Access.size?, hp, Option.bind_some, Pointer.size?]
    | buffer sites interval =>
      have hclassify : (Checker.bounds policy).classify a = policy.classify interval a.index := by
        simp only [Checker.bounds, Access.size?, hp, Option.bind_some, Pointer.size?]
      rw [hclassify] at hne
      obtain ⟨n, rfl, hn⟩ :=
        h.index.exists_number (StraddlePolicy.known_of_classify_ne hne).2
      cases base with
      | number w => exact (h.pointer _ hp).elim
      | buffer site size =>
        exact ⟨interval, site, size, n, rfl, rfl, (h.pointer _ hp).2, hn, hclassify⟩

/-- An access in bounds is one to an element of a buffer. -/
theorem Describes.of_inBounds (h : a.Describes base index)
    (hin : (Checker.bounds policy).classify a = .inBounds) :
    ∃ site size n, base = .buffer site size ∧ index = .number n ∧
      0 ≤ n.toInt ∧ n.toInt < size.toInt := by
  obtain ⟨interval, site, size, n, rfl, rfl, hsize, hn, heq⟩ :=
    h.of_decided (ne_of_eq_of_ne hin nofun)
  rw [heq] at hin
  exact ⟨site, size, n, rfl, rfl, StraddlePolicy.lt_of_classify_inBounds hin hsize hn⟩

/-- An access out of bounds is one to a buffer, and to no element of it unless the policy only counts
it so. -/
theorem Describes.of_outOfBounds (h : a.Describes base index)
    (hout : (Checker.bounds policy).classify a = .outOfBounds) :
    ∃ site size n, base = .buffer site size ∧ index = .number n ∧
      (policy = .indeterminate → n.toInt < 0 ∨ size.toInt ≤ n.toInt) := by
  obtain ⟨interval, site, size, n, rfl, rfl, hsize, hn, heq⟩ :=
    h.of_decided (ne_of_eq_of_ne hout nofun)
  rw [heq] at hout
  refine ⟨site, size, n, rfl, rfl, ?_⟩
  rintro rfl
  exact StraddlePolicy.not_lt_of_classify_outOfBounds hout hsize hn

end Access

namespace Flow

/-- **Verdicts are sound.** Let a run come to an access whose base and index have values. Then the
block is reached, and at the place of the access its trace has a store from which the access is
recorded. What is recorded there holds of the base and the index. If the verdict is in bounds, the
base is a buffer that has an element at the index. If it is out of bounds the base is a buffer too,
and under the policy that decides nothing about straddling intervals it has no element there. -/
theorem verdicts_sound {g : Flow} {settings : Settings} {c : Config} {site : Site} {base : String}
    {index : Expr} {span : Span} {rest : List (Site × Statement)} {d v : Content}
    (hrun : g.Reaches settings c) (hrest : c.rest = (site, .access base index span) :: rest)
    (hbase : c.memory base = some d) (hindex : index.Evaluates c.memory v) :
    ∃ entry s a,
      (g.propagate settings).entries[c.block.id]? = some entry ∧
      (c.block.trace settings entry)[site.statement]? = some (site, .access base index span, s) ∧
      (Statement.access base index span).access? g.function.name s = some a ∧
      a ∈ (g.propagate settings).accesses ∧
      a.Describes d v ∧
      ∀ policy,
        ((Checker.bounds policy).classify a = .inBounds →
          ∃ site size n, d = .buffer site size ∧ v = .number n ∧
            0 ≤ n.toInt ∧ n.toInt < size.toInt) ∧
        ((Checker.bounds policy).classify a = .outOfBounds →
          ∃ site size n, d = .buffer site size ∧ v = .number n ∧
            (policy = .indeterminate → n.toInt < 0 ∨ size.toInt ≤ n.toInt)) := by
  obtain ⟨entry, s, hfollows⟩ := hrun.exists_follows
  obtain ⟨htrace, hmem⟩ := hfollows.recorded hrest rfl
  have hdesc : Access.Describes
      ⟨g.function.name, base, s.pointer? base, index.number s, span⟩ d v :=
    ⟨fun _ hp => hfollows.describes.pointer hp hbase, hindex.describes_number hfollows.describes⟩
  exact ⟨entry, s, _, hfollows.entry_eq, htrace, rfl, hmem, hdesc,
    fun _ => ⟨hdesc.of_inBounds, hdesc.of_outOfBounds⟩⟩

/-- A function that makes a buffer of four elements and then goes through them. -/
def fill : Flow where
  function :=
    { name := "fill"
      entry := "start"
      blocks :=
        [ ⟨"start",
            [.assign "p" (.call "malloc" [.const 4]) ⟨1, 1, 1, 13⟩,
              .assign "i" (.const 0) ⟨2, 1, 2, 5⟩],
            .goto "test"⟩,
          ⟨"test", [], .branch (some ⟨"i", .lt, .const 4⟩) "body" "done"⟩,
          ⟨"body",
            [.access "p" (.var "i") ⟨4, 3, 4, 6⟩,
              .assign "i" (.add (.var "i") (.const 1)) ⟨5, 3, 5, 11⟩],
            .goto "test"⟩,
          ⟨"done", [], .exit⟩] }
  wellFormed := (Function.fault?_eq_none_iff _).mp (by decide)
  order := _
  order_eq := rfl

/-- A run that comes to the element `p[0]`. -/
theorem verdicts_sound_fill :
    ∃ c, fill.Reaches default c ∧ ∃ a ∈ (fill.propagate default).accesses,
      a.Describes (.buffer ⟨"start", 0, ⟨1, 1, 1, 13⟩⟩ 4) (.number 0) := by
  let undefined : Memory := fun _ => none
  let memory := (undefined.set "p" (.buffer ⟨"start", 0, ⟨1, 1, 1, 13⟩⟩ 4)).set "i" (.number 0)
  have hstarts : fill.Starts
      ⟨fill.function.blocks[0], fill.function.blocks[0].located, undefined⟩ :=
    ⟨rfl, rfl, fun _ _ => rfl⟩
  have hfour : ∀ n, Content.number 4 = .number n → 4 = n := fun _ h => Content.number.inj h
  have htest : ∀ a b, Content.number 0 = .number a → Content.number 4 = .number b →
      (EdgeKind.whenTrue = .whenTrue ↔ Comparison.lt.Holds a.toInt b.toInt) := by
    rintro _ _ ⟨⟩ ⟨⟩
    exact iff_of_true rfl (by decide)
  have hreaches : fill.Reaches default
      ⟨fill.function.blocks[2], fill.function.blocks[2].located, memory⟩ := by
    refine ⟨_, hstarts, ?_⟩
    refine .head (.statement (.allocate rfl ⟨_, .const 4, hfour⟩)) ?_
    refine .head (.statement (.assign nofun (.const 0))) ?_
    refine .head (.edge ⟨List.mem_singleton_self _, nofun⟩ rfl) ?_
    refine .head (.edge ⟨List.mem_cons_self .., ?_⟩ rfl) .refl
    rintro _ ⟨⟩
    exact ⟨_, _, rfl, .const 4, htest⟩
  obtain ⟨entry, s, a, -, -, -, ha, hdesc, -⟩ := verdicts_sound hreaches rfl rfl (.var rfl)
  exact ⟨_, hreaches, a, ha, hdesc⟩

end Flow

end BufferBounds
