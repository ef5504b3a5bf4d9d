import BufferBounds.Proofs.LeastUpperBounds

/-!
# Widening

When a store arrives at the start of a loop that has changed too often, the variables that change are
widened. What is left, `joinWidened`, still lies above the store that was there and above the one that
arrives. It does not lie above all that may arrive later, as widening keeps the kind: an untracked
pointer becomes an unknown number once it is joined with a number. But that is the end of it. Each time
a variable is widened its `height` falls, and joining does not raise it, so it is widened at most twice.
-/

namespace BufferBounds

namespace Store

variable {s t : Store} {var : String}

/-! ## Variables that change -/

/-- The variables of the one store come first, and none of the others is among them. -/
theorem nodup_changed (s t : Store) : (s.changed t).Nodup := by
  have hs : s.vars.Nodup := Std.ExtTreeMap.nodup_keys
  have ht : t.vars.Nodup := Std.ExtTreeMap.nodup_keys
  rw [changed, List.nodup_append]
  refine ⟨hs.filter _, ht.filter _, ?_⟩
  rintro x hx y hy rfl
  have hmem : x ∈ s := Std.ExtTreeMap.mem_keys.mp (List.mem_filter.mp hx).1
  exact of_decide_eq_true (List.mem_filter.mp hy).2 hmem

/-- Nothing has changed exactly if the stores are the same. -/
theorem changed_eq_nil_iff : s.changed t = [] ↔ s = t := by
  rw [List.eq_nil_iff_forall_not_mem, Store.ext_get?_iff]
  exact forall_congr' fun var => mem_changed_iff.not.trans not_not

/-! ## One step -/

/-- What is left of a store when another one arrives: the join, where the variables that change are
widened. -/
def joinWidened (s incoming : Store) : Store :=
  (s.join incoming).widen (s.changed (s.join incoming))

theorem Normal.joinWidened (hs : s.Normal) (ht : t.Normal) : (s.joinWidened t).Normal :=
  Value.hereditary_normal.widenStore (hs.join ht) _

/-- Widening covers what is widened. -/
theorem widen_join_self (s : Store) (vars : List String) : (s.widen vars).join s = s.widen vars := by
  ext1 var
  rw [get?_join, get?_widen]
  split
  · cases s.get? var with
    | none => rfl
    | some x => exact congrArg some (Value.widened_join_self x)
  · rw [← get?_join, join_self]

/-- Of a variable that is widened no more than its kind is left. -/
theorem get?_joinWidened_of_mem (h : var ∈ s.changed (s.join t)) :
    (s.joinWidened t).get? var = some (.scalar .unknown) ∨
      (s.joinWidened t).get? var = some (.pointer .untracked) := by
  obtain ⟨x, hx⟩ : ∃ x, (s.join t).get? var = some x := by
    refine Option.ne_none_iff_exists'.mp fun hnone => ?_
    obtain ⟨hs, -⟩ := get?_join_eq_none_iff.mp hnone
    exact mem_changed_iff.mp h (hs.trans hnone.symm)
  rw [joinWidened, get?_widen, if_pos h, hx, Option.map_some]
  cases x with
  | scalar i => exact Or.inl rfl
  | pointer p => exact Or.inr rfl

/-- A variable that changes changes still when it is widened: its height falls. -/
theorem get?_joinWidened_ne (h : var ∈ s.changed (s.join t)) :
    s.get? var ≠ (s.joinWidened t).get? var := by
  intro heq
  have hlt : BufferBounds.height ((s.joinWidened t).get? var) < BufferBounds.height (s.get? var) :=
    height_get?_widen_join_lt h
  rw [heq] at hlt
  exact Nat.lt_irrefl _ hlt

/-- Of normal stores both that are joined lie below what is left. -/
theorem Normal.below_joinWidened (hs : s.Normal) (ht : t.Normal) :
    s.Below (s.joinWidened t) ∧ t.Below (s.joinWidened t) := by
  have hw := hs.joinWidened ht
  have hjoin : (s.join t).Below (s.joinWidened t) :=
    (isJoin.eq_left_iff hw (hs.join ht)).mp (widen_join_self _ _)
  exact (isJoin.below_iff hs ht hw).mp hjoin

/-! ## Many steps -/

/-- Which variables change when these stores arrive one after the other and every change is
widened. -/
def changesAlong (s : Store) : List Store → List (List String)
  | [] => []
  | incoming :: rest => s.changed (s.join incoming) :: (s.joinWidened incoming).changesAlong rest

/-- A variable changes no more often than its height allows. -/
theorem countP_changesAlong_le (s : Store) (incomings : List Store) (var : String) :
    (s.changesAlong incomings).countP (fun changed => var ∈ changed) ≤
      BufferBounds.height (s.get? var) := by
  induction incomings generalizing s with
  | nil => exact Nat.zero_le _
  | cons incoming rest ih =>
    have hrest := ih (s.joinWidened incoming)
    rw [changesAlong, List.countP_cons]
    by_cases h : var ∈ s.changed (s.join incoming)
    · have hlt : BufferBounds.height ((s.joinWidened incoming).get? var) <
          BufferBounds.height (s.get? var) := height_get?_widen_join_lt h
      rw [if_pos (decide_eq_true h)]
      omega
    · have hsame : (s.joinWidened incoming).get? var = s.get? var := get?_widen_join_of_notMem h
      rw [if_neg (by simpa using h), ← hsame]
      exact hrest

end Store

/-! ## Widening in the propagation -/

namespace Progress

variable {g : Flow} {settings : Settings} {p q : Progress g} {id var : String}

/-- Is the variable widened at the start of the block from `p` to `q`? Past the limit every change is
widened, so this asks whether its value has changed there and the limit is passed. -/
def widensAt (settings : Settings) (p q : Progress g) (id var : String) : Bool :=
  match p.entries[id]?, q.entries[id]? with
  | some old, some entry =>
    decide (settings.maxFixpointIterations.toNat < q.changes.getD id 0 ∧
      old.get? var ≠ entry.get? var)
  | _, _ => false

/-- How often the variable is widened at the start of the block in the first `n` steps from `p`. -/
def countWidenings (settings : Settings) (p : Progress g) (id var : String) (n : Nat) : Nat :=
  (List.range n).countP fun k =>
    (p.advance settings k).widensAt settings (p.advance settings (k + 1)) id var

/-- How often the variable can still be widened at the start of the block. -/
def heightAt (p : Progress g) (id var : String) : Nat :=
  match p.entries[id]? with
  | some s => height (s.get? var)
  | none => 2

theorem heightAt_of_eq_some {s : Store} (h : p.entries[id]? = some s) :
    p.heightAt id var = height (s.get? var) := by
  rw [heightAt, h]

theorem widensAt_iff {old entry : Store} (hold : p.entries[id]? = some old)
    (hentry : q.entries[id]? = some entry) :
    p.widensAt settings q id var = true ↔
      settings.maxFixpointIterations.toNat < q.changes.getD id 0 ∧
        old.get? var ≠ entry.get? var := by
  rw [widensAt, hold, hentry]
  exact decide_eq_true_iff

/-- Where the store stays as it is nothing is widened. -/
theorem heightAt_le_of_eq (h : q.entries[id]? = p.entries[id]?) :
    q.heightAt id var + (if p.widensAt settings q id var then 1 else 0) ≤ p.heightAt id var := by
  cases hold : p.entries[id]? with
  | none =>
    have hnone : p.widensAt settings q id var = false := by rw [widensAt, hold]
    rw [hnone, heightAt, heightAt, h]
    exact Nat.le_refl _
  | some old =>
    have hentry : q.entries[id]? = some old := h.trans hold
    rw [heightAt_of_eq_some hold, heightAt_of_eq_some hentry, if_neg]
    · exact Nat.le_refl _
    · rw [widensAt_iff hold hentry]
      exact fun hwidens => hwidens.2 rfl

/-- A visit at the start of a loop pays for a variable that it widens with the height of the
variable. -/
theorem Renewal.heightAt_le {b : Block} {incoming entry : Store} {hb : b ∈ g.order}
    {hentry : entry.Within g.assigned} (h : Renewal settings p b incoming entry q)
    (hheader : g.isLoopHeader b.id = true) :
    (q.run settings b hb entry hentry).heightAt b.id var +
        (if p.widensAt settings (q.run settings b hb entry hentry) b.id var then 1 else 0) ≤
      p.heightAt b.id var := by
  have hrun : (q.run settings b hb entry hentry).entries[b.id]? = some entry := by
    rw [getElem?_entries_run, if_pos rfl]
  rw [heightAt_of_eq_some hrun]
  cases h with
  | first hold =>
    have hfirst : p.widensAt settings (p.run settings b hb incoming hentry) b.id var = false := by
      rw [widensAt, hold]
    rw [hfirst, heightAt, hold]
    exact height_le_two _
  | plain hold hne hplain => exact absurd hheader hplain
  | counted hold hne _ hcap =>
    rw [heightAt_of_eq_some hold, if_neg]
    · rw [Store.get?_join]
      exact height_joinEntry_le _ _
    · -- the limit is not passed yet
      rw [widensAt_iff hold hrun, changes_run, changes_count_self]
      exact fun hwidens => Nat.not_lt.mpr hcap hwidens.1
  | @widened old hold hne _ hcap =>
    rw [heightAt_of_eq_some hold]
    by_cases hvar : var ∈ old.changed (old.join incoming)
    · have hlt := Store.height_get?_widen_join_lt hvar
      split <;> omega
    · have hsame := Store.get?_widen_join_of_notMem hvar
      rw [hsame, if_neg]
      · exact Nat.le_refl _
      · rw [widensAt_iff hold hrun]
        exact fun hwidens => hwidens.2 hsame.symm

theorem Stepped.heightAt_le (hstep : Stepped settings p q) (hheader : g.isLoopHeader id = true) :
    q.heightAt id var + (if p.widensAt settings q id var then 1 else 0) ≤ p.heightAt id var := by
  cases hstep with
  | idle hpending hsettled => exact heightAt_le_of_eq rfl
  | @run place pending b incoming entry r hpending hplace hincoming hrenewal hmem hentry =>
    by_cases hid : b.id = id
    · subst hid
      exact hrenewal.heightAt_le hheader
    · refine heightAt_le_of_eq ?_
      rw [getElem?_entries_run, if_neg hid, hrenewal.entries_eq]
      rfl

/-- In any number of steps a variable is widened no more often than its height falls. -/
theorem countWidenings_le (p : Progress g) (settings : Settings) (var : String)
    (hheader : g.isLoopHeader id = true) (n : Nat) :
    p.countWidenings settings id var n + (p.advance settings n).heightAt id var ≤
      p.heightAt id var := by
  induction n with
  | zero => exact Nat.le_of_eq (Nat.zero_add _)
  | succ n ih =>
    have hstep : (p.advance settings (n + 1)).heightAt id var +
        (if (p.advance settings n).widensAt settings (p.advance settings (n + 1)) id var
          then 1 else 0) ≤ (p.advance settings n).heightAt id var := by
      rcases p.stepped_advance settings n with hstep | heq
      · exact hstep.heightAt_le hheader
      · exact heightAt_le_of_eq (by rw [heq])
    rw [countWidenings, List.range_succ, List.countP_append, List.countP_singleton]
    rw [countWidenings] at ih
    omega

end Progress

/-! ## The bounds -/

/-- **A widening step leads to an upper bound, and widens a variable for the second time at most.** What
has changed is listed without repetition. The widened store covers the join and what arrived; it
differs from the old store just in what has changed, and there tells no more than the kind. Along any
sequence of such steps, and in the propagation at the start of each loop, every variable is widened at
most twice. -/
theorem Store.widening_bounded :
    (∀ old incoming : Store,
      let joined := old.join incoming
      let changed := old.changed joined
      let widened := joined.widen changed
      changed.Nodup ∧
        (∀ var, var ∈ changed ↔ old.get? var ≠ joined.get? var) ∧
        (changed = [] ↔ old = joined) ∧
        widened.join joined = widened ∧
        widened.join incoming = widened ∧
        (old.Normal → incoming.Normal → old.Below widened ∧ incoming.Below widened) ∧
        (∀ var, var ∉ changed → widened.get? var = old.get? var) ∧
        ∀ var ∈ changed, old.get? var ≠ widened.get? var ∧
          (widened.get? var = some (.scalar .unknown) ∨
            widened.get? var = some (.pointer .untracked))) ∧
      (∀ (s : Store) (incomings : List Store) (var : String),
        (s.changesAlong incomings).countP (fun changed => var ∈ changed) ≤ 2) ∧
      ∀ (g : Flow) (settings : Settings) (id : String), g.isLoopHeader id = true →
        ∀ (var : String) (n : Nat),
          (Progress.start g).countWidenings settings id var n ≤ 2 := by
  refine ⟨?_, ?_, ?_⟩
  · intro old incoming joined changed widened
    refine ⟨nodup_changed _ _, fun _ => mem_changed_iff, changed_eq_nil_iff, widen_join_self _ _,
      widen_join_join _ _, fun hold hincoming => hold.below_joinWidened hincoming,
      fun _ => get?_widen_join_of_notMem, ?_⟩
    intro var hvar
    exact ⟨get?_joinWidened_ne hvar, get?_joinWidened_of_mem hvar⟩
  · intro s incomings var
    exact (countP_changesAlong_le s incomings var).trans (height_le_two _)
  · intro g settings id hheader var n
    have hle := (Progress.start g).countWidenings_le settings var hheader n
    have htwo : (Progress.start g).heightAt id var = 2 := by
      rw [Progress.heightAt, Progress.start, Std.ExtTreeMap.getElem?_empty]
    omega

/-- A loop that is also entered from the side. There `p` is a number, and on the way around it is made a
pointer. -/
def Flow.sideways : Flow where
  function :=
    { name := "sideways"
      entry := "start"
      blocks :=
        [ ⟨"start", [], .branch none "head" "side"⟩,
          ⟨"side", [.assign "p" (.const 3) ⟨2, 3, 2, 8⟩], .goto "inner"⟩,
          ⟨"head", [], .branch none "inner" "around"⟩,
          ⟨"around", [.assign "p" (.call "malloc" [.const 8]) ⟨4, 3, 4, 16⟩], .goto "head"⟩,
          ⟨"inner", [], .goto "head"⟩ ] }
  wellFormed := (Function.fault?_eq_none_iff _).mp (by decide)
  order := _
  order_eq := rfl

/-- First the buffer is widened to an untracked pointer, and then this is widened by the number. -/
theorem Store.widening_bounded_sideways :
    let strict : Settings := { (default : Settings) with maxFixpointIterations := 0 }
    let buffer := (∅ : Store).bind "p"
      (.pointer (.fresh ⟨"around", 0, ⟨4, 3, 4, 16⟩⟩ (.constant 8)))
    let number := (∅ : Store).bind "p" (.scalar (.constant 3))
    let widened := (buffer.join number).widen (buffer.changed (buffer.join number))
    buffer.Normal ∧ number.Normal ∧ buffer.Below widened ∧ number.Below widened ∧
      ((∅ : Store).changesAlong [buffer, number]).countP (fun changed => "p" ∈ changed) = 2 ∧
      Flow.sideways.isLoopHeader "head" = true ∧
      (Progress.start Flow.sideways).countWidenings strict "head" "p" 8 = 2 ∧
      ∀ n, (Progress.start Flow.sideways).countWidenings strict "head" "p" n ≤ 2 := by
  intro strict buffer number widened
  have hbuffer : buffer.Normal := (all_empty _).bind trivial
  have hnumber : number.Normal := (all_empty _).bind trivial
  have hheader : Flow.sideways.isLoopHeader "head" = true := by decide +kernel
  obtain ⟨hstep, -, hrun⟩ := widening_bounded
  obtain ⟨-, -, -, -, -, hbelow, -⟩ := hstep buffer number
  obtain ⟨hbelow, hbelow'⟩ := hbelow hbuffer hnumber
  exact ⟨hbuffer, hnumber, hbelow, hbelow', by decide +kernel, hheader, by decide +kernel,
    hrun Flow.sideways strict "head" hheader "p"⟩

end BufferBounds
