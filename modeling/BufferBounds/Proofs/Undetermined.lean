import BufferBounds.Proofs.Assignments
import BufferBounds.Proofs.Entrances
import BufferBounds.Proofs.Reports
import BufferBounds.Proofs.Soundness

/-!
# Indices that are not determined

An assignment that leaves nothing known of the number in its variable is noticed wherever it reaches,
if conditions restrict nothing: whatever it is joined with, nothing is known. And of a variable that
no assignment reaches nothing is known either. So the verdict on an access with such an index is that
nothing is decided.

A path on which the variable is not assigned at all is not noticed in this way. In a join the side
that has a value wins.
-/

namespace BufferBounds

/-! ## Variables of which nothing is known -/

namespace Store

variable {s t u : Store} {var : String}

/-- The variable has a value in the store, of which no number is known. -/
def Obscure (var : String) (s : Store) : Prop := ∃ x, s.get? var = some x ∧ x.number = .unknown

theorem number_of_notMem (h : var ∉ s) : s.number var = .unknown := by
  rw [mem_iff_isSome_get?, Option.not_isSome_iff_eq_none] at h
  rw [number, h]

theorem obscure_iff : s.Obscure var ↔ var ∈ s ∧ s.number var = .unknown := by
  rw [mem_iff_isSome_get?, number]
  cases h : s.get? var with
  | none => simp [Obscure, h]
  | some x => simp [Obscure, h]

theorem Obscure.join_left (h : s.Obscure var) (t : Store) : (s.join t).Obscure var := by
  obtain ⟨x, hx, hunknown⟩ := h
  rw [Obscure, get?_join, hx]
  cases t.get? var with
  | none => exact ⟨x, rfl, hunknown⟩
  | some y =>
    refine ⟨_, rfl, ?_⟩
    rw [Value.number_join, hunknown, Interval.unknown_join]

theorem Obscure.join_right (s : Store) (h : t.Obscure var) : (s.join t).Obscure var := by
  obtain ⟨y, hy, hunknown⟩ := h
  rw [Obscure, get?_join, hy]
  cases s.get? var with
  | none => exact ⟨y, rfl, hunknown⟩
  | some x =>
    refine ⟨_, rfl, ?_⟩
    rw [Value.number_join, hunknown, Interval.join_unknown]

theorem Obscure.foldl_join (h : s.Obscure var) (ss : List Store) :
    (ss.foldl Store.join s).Obscure var := by
  induction ss generalizing s with
  | nil => exact h
  | cons t ss ih => exact ih (h.join_left t)

/-- One of the stores that are joined is enough. -/
theorem Obscure.joinAll? {ss : List Store} (h : s.Obscure var) (hs : s ∈ ss)
    (ht : Store.joinAll? ss = some t) : t.Obscure var := by
  cases ss with
  | nil => cases hs
  | cons u ss =>
    obtain rfl := Option.some.inj ht
    clear ht
    induction ss generalizing u with
    | nil => exact List.mem_singleton.mp hs ▸ h
    | cons v ss ih =>
      rcases List.mem_cons.mp hs with rfl | hs
      · exact (h.join_left v).foldl_join ss
      · rcases List.mem_cons.mp hs with rfl | hs
        · exact (h.join_right u).foldl_join ss
        · exact ih _ (List.mem_cons_of_mem _ hs)

end Store

/-- An assignment of a value of which nothing is known leaves nothing known. -/
theorem Statement.obscure_after {settings : Settings} {site : Site} {s : Store} {target : String}
    {value : Expr} {span : Span} (h : value.value s = .scalar .unknown) :
    ((Statement.assign target value span).after settings site s).Obscure target := by
  rw [after.eq_def]
  split
  · rename_i a ha
    rw [Store.allocate, Store.Obscure, Store.get?_bind,
      if_pos (Option.some.inj (target_of_allocation? ha)).symm]
    exact ⟨_, rfl, rfl⟩
  · rename_i heq
    cases heq
    rw [Store.assign_eq_bind, Store.Obscure, Store.get?_bind, if_pos rfl, h, Store.stored]
    split
    · exact ⟨_, rfl, rfl⟩
    · exact ⟨_, rfl, rfl⟩
  · rename_i hassign
    exact absurd rfl (hassign target value span)

/-- Of an unknown index nothing is decided. -/
theorem Checker.bounds_classify_of_unknown {a : Access} (h : a.index = .unknown)
    (policy : StraddlePolicy) : (bounds policy).classify a = .indeterminate := by
  rw [bounds_classify, h]
  cases a.size?.getD .unknown <;> rfl

namespace Flow

variable {g : Flow} {settings : Settings} {var : String} {x y : Point}

/-! ## Reached blocks -/

/-- What stands at the end of a block arrives where it leads, if conditions restrict nothing. -/
theorem mem_arriving (hnarrow : settings.branchNarrowing = false) {exits : Table Store} {b : Block}
    (hb : b ∈ g.function.blocks) {target : String} (ht : target ∈ b.terminator.targets)
    {exit : Store} (hexit : exits[b.id]? = some exit) :
    exit ∈ g.arriving settings exits target := by
  obtain ⟨⟨target, kind⟩, hedge, rfl⟩ := List.mem_map.mp ht
  refine List.mem_append_right _ (List.mem_filterMap.mpr ⟨(b, kind), ?_, ?_⟩)
  · exact mem_incoming.mpr ⟨hb, hedge⟩
  · exact Option.bind_eq_some_iff.mpr
      ⟨exit, hexit, Block.along?_of_branchNarrowing_eq_false hnarrow⟩

/-- If conditions restrict nothing, the store at the end of a block is covered where it leads. -/
theorem exists_entry_of_mem_targets (hnarrow : settings.branchNarrowing = false) {b : Block}
    (hb : b ∈ g.function.blocks) {target : String} (ht : target ∈ b.terminator.targets)
    {exit : Store} (hexit : (g.propagate settings).exits[b.id]? = some exit) :
    ∃ incoming entry,
      g.incomingStore? settings (g.propagate settings).exits target = some incoming ∧
      exit ∈ g.arriving settings (g.propagate settings).exits target ∧
      (g.propagate settings).entries[target]? = some entry ∧ entry.join incoming = entry := by
  have hmem := mem_arriving hnarrow hb ht hexit
  have hid : b.id ∈ (g.propagate settings).entries :=
    mem_entries_iff.mpr (Table.mem_of_eq_some hexit)
  have hreach : g.function.Reachable target :=
    (reachable_of_mem_entries hid).tail ⟨b, g.wellFormed.block?_id hb, ht⟩
  obtain ⟨incoming, hincoming⟩ :=
    Option.isSome_iff_exists.mp (Store.isSome_joinAll?_iff.mpr ⟨exit, hmem⟩)
  obtain ⟨entry, hentry, hjoin⟩ := covered_propagate hreach incoming hincoming
  exact ⟨incoming, entry, hincoming, hmem, hentry, hjoin⟩

/-- If conditions restrict nothing, all blocks that can be reached are reached. -/
theorem exists_entry_of_mem_order (hnarrow : settings.branchNarrowing = false) {b : Block}
    (hb : b ∈ g.order) : ∃ entry, (g.propagate settings).entries[b.id]? = some entry := by
  have hreach := (mem_order_iff.mp hb).2
  generalize b.id = id at hreach
  induction hreach with
  | refl =>
    have hentry := g.entry_mem_entries settings
    exact Table.mem_iff_exists.mp hentry
  | tail _ hedge ih =>
    obtain ⟨c, hc, ht⟩ := hedge
    obtain ⟨hmem, rfl⟩ := Function.mem_blocks_of_block? hc
    obtain ⟨entry, hentry⟩ := ih
    obtain ⟨_, entry', -, -, hentry', -⟩ :=
      exists_entry_of_mem_targets hnarrow hmem ht (exits_eq_transfer hmem hentry)
    exact ⟨entry', hentry'⟩

/-! ## Obscure variables along a path -/

/-- At the point of the solution nothing is known of the variable, though it has a value. -/
def ObscureAt (g : Flow) (settings : Settings) (var : String) (x : Point) : Prop :=
  x.block ∈ g.function.blocks ∧
    ∃ entry, (g.propagate settings).entries[x.block.id]? = some entry ∧
      (x.block.storeAt settings entry x.place).Obscure var

/-- A move that does not assign the variable lets nothing become known of it. -/
theorem ObscureAt.move (hnarrow : settings.branchNarrowing = false)
    (hx : g.ObscureAt settings var x) (hmove : g.Move (Statement.Spares var) x y) :
    g.ObscureAt settings var y := by
  obtain ⟨hb, entry, hentry, hobscure⟩ := hx
  cases hmove with
  | statement hplace hspares =>
    refine ⟨hb, entry, hentry, ?_⟩
    rw [Block.storeAt_succ hplace, Store.Obscure, Statement.get?_after_of_spares hspares]
    exact hobscure
  | edge hc ht =>
    obtain ⟨incoming, entry', hincoming, hmem, hentry', hjoin⟩ :=
      exists_entry_of_mem_targets hnarrow hb ht (exits_eq_transfer hb hentry)
    simp only [Block.storeAt_length] at hobscure
    refine ⟨hc, entry', hentry', ?_⟩
    rw [Block.storeAt_zero, ← hjoin]
    exact (hobscure.joinAll? hmem hincoming).join_right entry'

theorem ObscureAt.path (hnarrow : settings.branchNarrowing = false)
    (hx : g.ObscureAt settings var x) (hpath : g.Path (Statement.Spares var) x y) :
    g.ObscureAt settings var y := by
  induction hpath with
  | refl => exact hx
  | tail _ hmove ih => exact ih.move hnarrow hmove

/-! ## The verdict -/

/-- **An index that is not determined is not decided.** Let conditions restrict nothing, and let a
path that does not assign the variable lead from the entry to an access with that variable as index.
If no assignment to the variable reaches the access, or one does that leaves nothing known of its
number, the access is recorded with an unknown index, and nothing is decided about it under either
policy. -/
theorem undetermined_index {g : Flow} {settings : Settings}
    (hnarrow : settings.branchNarrowing = false) {b : Block} {place : Nat} {base var : String}
    {span : Span} (haccess : b.statements[place]? = some (.access base (.var var) span))
    (hpath : g.FromEntry (Statement.Spares var) ⟨b, place⟩)
    (hassigned : (∀ c i, ¬ g.Assigns var ⟨b, place⟩ c i) ∨
      ∃ c i entry, g.Assigns var ⟨b, place⟩ c i ∧
        (g.propagate settings).entries[c.id]? = some entry ∧
        (c.storeAt settings entry (i + 1)).number var = .unknown) :
    ∃ entry a,
      (g.propagate settings).entries[b.id]? = some entry ∧
      (b.trace settings entry)[place]? = some
        (⟨b.id, place, span⟩, .access base (.var var) span, b.storeAt settings entry place) ∧
      (Statement.access base (.var var) span).access? g.function.name
        (b.storeAt settings entry place) = some a ∧
      a ∈ (g.propagate settings).accesses ∧
      a.index = .unknown ∧
      ∀ policy, (Checker.bounds policy).classify a = .indeterminate := by
  have hb : b ∈ g.order := hpath.mem_order
  obtain ⟨hblock, -⟩ := mem_order_iff.mp hb
  obtain ⟨entry, hentry⟩ := exists_entry_of_mem_order hnarrow hb
  have hplace : place ≤ b.statements.length :=
    Nat.le_of_lt (List.getElem?_eq_some_iff.mp haccess).1
  have hunknown : (b.storeAt settings entry place).number var = .unknown := by
    rcases hassigned with hnone | ⟨c, i, entry', hassigns, hentry', hleft⟩
    · apply Store.number_of_notMem
      intro hvar
      obtain ⟨c, i, hassigns⟩ := exists_assigns hblock hentry hplace hvar
      exact hnone c i hassigns
    · obtain ⟨statement, hstatement, htarget⟩ := hassigns.target
      have hvar : var ∈ c.storeAt settings entry' (i + 1) := by
        rw [Block.storeAt_succ hstatement]
        exact Statement.mem_after htarget
      have hstart : g.ObscureAt settings var ⟨c, i + 1⟩ :=
        ⟨(mem_order_iff.mp hassigns.from_entry.mem_order).1, entry', hentry',
          Store.obscure_iff.mpr ⟨hvar, hleft⟩⟩
      obtain ⟨-, entry'', hentry'', hobscure⟩ := hstart.path hnarrow hassigns.path
      obtain rfl := Option.some.inj (hentry.symm.trans hentry'')
      exact (Store.obscure_iff.mp hobscure).2
  have htrace : (b.trace settings entry)[place]? = some _ := Block.getElem?_trace haccess
  refine ⟨entry, _, hentry, htrace, rfl, ?_, hunknown,
    Checker.bounds_classify_of_unknown hunknown⟩
  apply mem_observe hb hentry
  exact List.mem_filterMap.mpr ⟨_, List.mem_of_getElem? htrace, rfl⟩

/-- The settings in which conditions restrict nothing. -/
def plainSettings : Settings := { (default : Settings) with branchNarrowing := false }

/-- A function that gives an index the value on one of two ways, and uses it after both. -/
def overwritten (value : Expr) : Flow where
  function :=
    { name := "overwritten"
      entry := "entry"
      blocks :=
        [ ⟨"entry", [.assign "buf" (.call "malloc" [.const 100]) ⟨1, 4, 1, 4⟩],
            .branch none "set" "use"⟩,
          ⟨"set", [.assign "n" value ⟨3, 4, 3, 4⟩], .goto "use"⟩,
          ⟨"use", [.access "buf" (.var "n") ⟨5, 4, 5, 4⟩], .exit⟩ ] }
  wellFormed := (Function.fault?_eq_none_iff _).mp rfl
  order := _
  order_eq := rfl

theorem fromEntry_overwritten (value : Expr) :
    (overwritten value).FromEntry (Statement.Spares "n")
      ⟨⟨"use", [.access "buf" (.var "n") ⟨5, 4, 5, 4⟩], .exit⟩, 0⟩ := by
  refine ⟨_, List.mem_cons_self .., rfl, ?_⟩
  refine .head (.statement rfl (by decide)) ?_
  exact .single (.edge (by simp [overwritten]) (by decide))

/-- Where the value is read from outside, nothing is decided. -/
theorem undetermined_index_overwritten :
    ∃ a ∈ ((overwritten (.call "input" [])).propagate plainSettings).accesses,
      a.base = "buf" ∧ ∀ policy, (Checker.bounds policy).classify a = .indeterminate := by
  let set : Block := ⟨"set", [.assign "n" (.call "input" []) ⟨3, 4, 3, 4⟩], .goto "use"⟩
  have hset : set ∈ (overwritten (.call "input" [])).order := mem_order_iff.mpr
    ⟨by simp [overwritten, set], mem_orderIds_iff.mp (by decide +kernel)⟩
  have hnarrow : plainSettings.branchNarrowing = false := rfl
  obtain ⟨entry, hentry⟩ := exists_entry_of_mem_order hnarrow hset
  have hleft : (set.storeAt plainSettings entry 1).number "n" = .unknown := by
    rw [Block.storeAt_succ (rfl : set.statements[0]? = some _)]
    exact (Store.obscure_iff.mp (Statement.obscure_after rfl)).2
  have hassigns : (overwritten (.call "input" [])).Assigns "n"
      ⟨⟨"use", [.access "buf" (.var "n") ⟨5, 4, 5, 4⟩], .exit⟩, 0⟩ set 0 :=
    ⟨fromEntry_of_mem_order hset, ⟨_, rfl, rfl⟩,
      .single (.edge (by simp [overwritten]) (List.mem_singleton_self _))⟩
  obtain ⟨_, a, -, -, ha, hmem, -, hverdict⟩ :=
    undetermined_index hnarrow rfl (fromEntry_overwritten _)
      (Or.inr ⟨_, 0, entry, hassigns, hentry, hleft⟩)
  exact ⟨a, hmem, Option.some.inj ha ▸ rfl, hverdict⟩

/-- A path that does not assign the index is not enough: a value known on the other way wins. -/
theorem decided_overwritten :
    (overwritten (.const 50)).FromEntry (Statement.Spares "n")
        ⟨⟨"use", [.access "buf" (.var "n") ⟨5, 4, 5, 4⟩], .exit⟩, 0⟩ ∧
      ∀ policy, ((overwritten (.const 50)).propagate plainSettings).accesses.map
        (Checker.bounds policy).classify = [.inBounds] := by
  refine ⟨fromEntry_overwritten _, fun policy => ?_⟩
  cases policy with
  | indeterminate => decide +kernel
  | reportMayOverflow => decide +kernel

end Flow

end BufferBounds
